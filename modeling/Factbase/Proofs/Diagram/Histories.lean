import Factbase.Proofs.Diagram.Rebuilding

/-!
# Histories of managers

A manager is used by calls, one behind another. A call is valid where its arguments are edges and
variables that the manager has; the edges it answers with are arguments of later calls.

* `Call.spec`: what any valid call does to a well-formed manager;
* `Reached m refs`: `m` is the manager behind some sequence of valid calls, which gave the edges
  `refs`;
* `Reached.wellFormed`: **every manager that is reached is well-formed**;
* `reached_canonical`: **in such a manager nodes are reduced, ordered and stored once, calls leave
  alone what is there, and equal edges are the edges with the same value**;
* `reached_ite`: **if-then-else and the operations derived from it are right, and so is all that
  the cache keeps behind them.**
-/

namespace Factbase.Diagram.Manager

/-! ## 1. Calls -/

/-- A call of an operation that may change a manager. -/
inductive Call where
  | extendVars (count : Nat)
  | setVarOrder (vs : List Nat)
  | mkVar (v : Nat)
  | mkNode (v : Nat) (low high : Edge)
  | cube (literals : List Int)
  | varSet (words : List Nat)
  | ite (f g h : Edge)
  | conj (f g : Edge)
  | disj (f g : Edge)
  | exclusive (f g : Edge)
  | diff (f g : Edge)
  | conjAll (fs : List Edge)
  | project (f vars : Edge)
  | readBody (remap : Nat → Option Nat) (lines : List (Option (List Char)))

namespace Call

/-- The arguments of a call are edges and variables that the manager has, a node is put above its
children, and literals are of different variables. The words of a set are literals as well. -/
def Valid (m : Manager) : Call → Prop
  | extendVars _ | setVarOrder _ | mkVar _ => True
  | mkNode v low high => m.order.Allocated v ∧ m.Holds low ∧ m.Holds high ∧
      m.order.levelAt v < m.rank low ∧ m.order.levelAt v < m.rank high
  | cube literals => m.Cubic literals
  | varSet words => m.Cubic (literalsOfWords words)
  | ite f g h => m.Holds f ∧ m.Holds g ∧ m.Holds h
  | conj f g | disj f g | exclusive f g | diff f g => m.Holds f ∧ m.Holds g
  | conjAll fs => ∀ f ∈ fs, m.Holds f
  | project f vars => m.Holds f ∧ ∃ vs, m.IsVarSet vars vs
  | readBody remap _ => ∀ v w, remap v = some w → m.order.Allocated w

/-- The program of a call; the result is the edges it answers with. -/
def run : Call → Op (List Edge)
  | extendVars count => do
    let _ ← Manager.extendVars count
    return []
  | setVarOrder vs => do
    Manager.setVarOrder vs
    return []
  | mkVar v => return [← Manager.mkVar v]
  | mkNode v low high => return [← Manager.mkNode v low high]
  | cube literals => return [← Manager.cube literals]
  | varSet words => return [← Manager.varSetOfWords words]
  | ite f g h => return [← Manager.ite f g h]
  | conj f g => return [← Manager.conj f g]
  | disj f g => return [← Manager.disj f g]
  | exclusive f g => return [← Manager.exclusive f g]
  | diff f g => return [← Manager.diff f g]
  | conjAll fs => return [← Manager.conjAll fs]
  | project f vars => return [← Manager.project f vars]
  | readBody remap lines => do
    match ← Manager.readBody remap lines with
    | .ok f => return [f]
    | .error _ => return []

end Call

/-- The manager behind a call is well-formed and has all earlier nodes. -/
def Later (m m' : Manager) : Prop := m'.WellFormed ∧ m.Extends m'

/-- A call ends well, or it is refused and changes nothing. -/
def Served (act : Op (List Edge)) (m : Manager) : Prop :=
  (Ends act m fun es m' => m.Later m' ∧ ∀ e ∈ es, m'.Holds e) ∨ ∃ fault, act m = .error fault m

theorem Makes.served {act : Op Edge} {m : Manager} {value : Assignment → Bool}
    (h : Makes act m value) : Served (return [← act]) m :=
  Or.inl <| Ends.bind h fun r m' ⟨n, hr, _⟩ =>
    ends_pure ⟨⟨n.1, n.2.nodes⟩, fun e he => by rwa [List.mem_singleton.mp he]⟩

section Calls

variable {m : Manager} (h : m.WellFormed)

include h

theorem served_setVarOrder (vs : List Nat) : Served (Call.setVarOrder vs).run m := by
  rcases wellFormed_setVarOrder h vs with ⟨order, run, _, _, hm⟩ | ⟨fault, run⟩
  · exact Or.inl (ends_bind run (ends_pure ⟨⟨hm, List.prefix_refl _⟩, by simp⟩))
  · refine Or.inr ⟨fault, ?_⟩
    show EStateM.bind _ _ m = _
    rw [EStateM.bind, run]

theorem served_mkVar (v : Nat) : Served (Call.mkVar v).run m := by
  by_cases hv : m.order.Allocated v
  · exact (makes_mkVar h hv).served
  · by_cases h0 : v = 0
    · exact Or.inr ⟨.zeroVariable, by rw [h0]; rfl⟩
    · have hlt : m.numVars < v := Nat.not_le.mp fun hle => hv ⟨h0, hle⟩
      refine Or.inr ⟨.unallocated v, ?_⟩
      show EStateM.bind (Manager.mkVar v) _ m = _
      have run : Manager.mkVar v m = .error (.unallocated v) m := by
        unfold Manager.mkVar
        rw [if_neg h0]
        show (if m.numVars < v then (_ : Op Edge) else _) m = _
        rw [if_pos hlt]
        rfl
      rw [EStateM.bind, run]

/-- **What a valid call does.** -/
theorem Call.spec {c : Call} (hc : c.Valid m) : Served c.run m := by
  cases c with
  | extendVars count =>
      exact Or.inl <| (wellFormed_extendVars h count).bind fun _ m' ⟨hm, ext, _⟩ =>
        ends_pure ⟨⟨hm, ext⟩, by simp⟩
  | setVarOrder vs => exact served_setVarOrder h vs
  | mkVar v => exact served_mkVar h v
  | mkNode v low high =>
      obtain ⟨hv, hl, hh, below, below'⟩ := hc
      exact (makes_mkNode h hv hl hh below below').served
  | cube literals => exact (makes_cube h hc).served
  | varSet words => exact (makes_cube h hc).served
  | ite f g k => exact (makes_ite h hc.1 hc.2.1 hc.2.2).served
  | conj f g => exact (makes_conj h hc.1 hc.2).served
  | disj f g => exact (makes_disj h hc.1 hc.2).served
  | exclusive f g => exact (makes_exclusive h hc.1 hc.2).served
  | diff f g => exact (makes_diff h hc.1 hc.2).served
  | conjAll fs => exact (makes_conjAll h hc).served
  | project f vars =>
      obtain ⟨hf, vs, hset⟩ := hc
      exact (makes_project h hf hset).served
  | readBody remap lines =>
      refine Or.inl <| (ends_readBody h hc lines).bind fun r m' ⟨n, hr⟩ => ?_
      cases r with
      | ok f =>
          exact ends_pure ⟨⟨n.1, n.2.nodes⟩, fun e he => by
            rw [List.mem_singleton.mp he]
            exact hr f rfl⟩
      | error error => exact ends_pure ⟨⟨n.1, n.2.nodes⟩, by simp⟩

end Calls

/-! ## 2. Managers that are reached -/

/-- The manager is reached by valid calls, which have given the listed edges. -/
inductive Reached : Manager → List Edge → Prop
  | created {storageBits cacheBits : Nat} {minFree : Float} {m : Manager}
      (run : create storageBits cacheBits minFree = .ok m) : Reached m [.one, .zero]
  | answered {m m' : Manager} {refs es : List Edge} (before : Reached m refs) {c : Call}
      (valid : c.Valid m) (run : c.run m = .ok es m') : Reached m' (es ++ refs)
  | refused {m m' : Manager} {refs : List Edge} {fault : Fault} (before : Reached m refs)
      {c : Call} (valid : c.Valid m) (run : c.run m = .error fault m') : Reached m' refs

section Reached

variable {m m' : Manager} {refs es : List Edge}

/-- A call that is answered has come to what its specification says. -/
theorem Call.later_of_ok (h : m.WellFormed) {c : Call} (valid : c.Valid m)
    (run : c.run m = .ok es m') : m.Later m' ∧ ∀ e ∈ es, m'.Holds e := by
  rcases c.spec h valid with ⟨es', m'', run', hm, hes⟩ | ⟨fault', run'⟩
  · rw [run] at run'
    obtain ⟨rfl, rfl⟩ := EStateM.Result.ok.inj run'
    exact ⟨hm, hes⟩
  · rw [run] at run'
    cases run'

/-- A call that is refused changes nothing. -/
theorem Call.eq_of_error (h : m.WellFormed) {c : Call} (valid : c.Valid m) {fault : Fault}
    (run : c.run m = .error fault m') : m' = m := by
  rcases c.spec h valid with ⟨es', m'', run', _, _⟩ | ⟨fault', run'⟩
  · rw [run] at run'
    cases run'
  · rw [run] at run'
    exact (EStateM.Result.error.inj run').2

/-- **Every manager that is reached is well-formed, and has the edges it has given.** -/
theorem Reached.wellFormed (r : Reached m refs) : m.WellFormed ∧ ∀ e ∈ refs, m.Holds e := by
  induction r with
  | created run =>
      have h := (wellFormed_create run).1
      refine ⟨h, fun e he => ?_⟩
      rcases List.mem_cons.mp he with rfl | he
      · exact h.holds_one
      · rw [List.mem_singleton.mp he]
        exact h.holds_zero
  | answered before valid run ih =>
      obtain ⟨hm, hes⟩ := Call.later_of_ok ih.1 valid run
      refine ⟨hm.1, fun e he => ?_⟩
      rcases List.mem_append.mp he with he | he
      · exact hes e he
      · exact hm.2.holds (ih.2 e he)
  | refused before valid run ih =>
      rw [Call.eq_of_error ih.1 valid run]
      exact ih

end Reached

/-! ## 3. Main results -/

/-- A manager with two variables and their edges is reached. -/
theorem reached_pair : ∃ m, Reached m [⟨3⟩, ⟨2⟩, .one, .zero] ∧ m.Holds ⟨2⟩ ∧ m.Holds ⟨3⟩ := by
  have r₀ := Reached.created (show create 2 2 0.2 = .ok _ from rfl)
  have r₁ := r₀.answered (c := .extendVars 2) trivial (show _ = EStateM.Result.ok [] _ from rfl)
  have r₂ := r₁.answered (c := .mkVar 1) trivial (show _ = EStateM.Result.ok [⟨2⟩] _ from rfl)
  have r₃ := r₂.answered (c := .mkVar 2) trivial (show _ = EStateM.Result.ok [⟨3⟩] _ from rfl)
  exact ⟨_, r₃, ⟨by decide, by decide +kernel⟩, ⟨by decide, by decide +kernel⟩⟩

/-- A manager with the disjunction of its two variables is reached, and with the second one. -/
theorem reached_disjunction : ∃ m, Reached m [⟨3⟩, ⟨2⟩, .one, .zero] ∧ m.numVars = 2 ∧
    m.IsVarSet ⟨2⟩ [2] := by
  have r₀ := Reached.created (show create 2 2 0.2 = .ok _ from rfl)
  have r₁ := r₀.answered (c := .extendVars 2) trivial (show _ = EStateM.Result.ok [] _ from rfl)
  have r₂ := r₁.answered (c := .mkVar 2) trivial (show _ = EStateM.Result.ok [⟨2⟩] _ from rfl)
  have r₃ := r₂.answered (c := .mkNode 1 ⟨2⟩ .one)
    ⟨⟨by decide, by decide +kernel⟩, ⟨by decide, by decide +kernel⟩,
      ⟨by decide, by decide +kernel⟩, by decide +kernel, by decide +kernel⟩
    (show _ = EStateM.Result.ok [⟨3⟩] _ from rfl)
  refine ⟨_, r₃, rfl, ⟨by decide, by decide +kernel⟩, rfl, rfl, by decide +kernel,
    by decide +kernel, ?_⟩
  show highOf _ _ = Edge.one
  decide +kernel

/-- What the questions say of a decision of a well-formed manager. -/
theorem WellFormed.node_spec {m : Manager} (h : m.WellFormed) {i : Nat} {n : Node} (hi : 2 ≤ i)
    (run : m.node i = .ok n) : n.high.negated = false ∧ n.low ≠ n.high ∧
      ∃ l low high, m.order.levelOf n.var = .ok l ∧ m.level n.low = .ok low ∧
        m.level n.high = .ok high ∧ l < low ∧ l < high := by
  obtain ⟨hle, hn⟩ := stored_of_node run
  have hp := h.placed i hi hle
  have hreg := h.regular i hi hle
  have hred := h.reduced i hi hle
  rw [hn] at hreg hred
  obtain ⟨hvar, hlow, hhigh, _, _, hbl, hbh⟩ := hp
  rw [hn] at hvar hlow hhigh hbl hbh
  exact ⟨hreg, hred, _, _, _, h.order.levelOf_eq hvar, h.level_eq hlow, h.level_eq hhigh, hbl, hbh⟩

/-- **Canonicity of managers.** In a manager that is reached, a decision has an uncomplemented
high edge, different children, and children at greater levels only, and none is stored twice. A
valid call, be it answered or refused, leaves all nodes and the values of all edges as they are.
The manager has all edges that it gave, and of the edges that it has, two are equal exactly where
they have the same value under every assignment. -/
theorem reached_canonical {m : Manager} {refs : List Edge} (r : Reached m refs) :
    (∀ i n, 2 ≤ i → m.node i = .ok n → n.high.negated = false ∧ n.low ≠ n.high ∧
      ∃ l low high, m.order.levelOf n.var = .ok l ∧ m.level n.low = .ok low ∧
        m.level n.high = .ok high ∧ l < low ∧ l < high) ∧
    (∀ i j n, 2 ≤ i → 2 ≤ j → m.node i = .ok n → m.node j = .ok n → i = j) ∧
    (∀ (c : Call) m', c.Valid m →
      (∃ es, c.run m = .ok es m') ∨ (∃ fault, c.run m = .error fault m') →
      (∀ i n, m.node i = .ok n → m'.node i = .ok n) ∧
        ∀ e, m.Holds e → ∀ ρ, m'.eval ρ e = m.eval ρ e) ∧
    (∀ e ∈ refs, m.Holds e) ∧
    ∀ e f, m.Holds e → m.Holds f → (e = f ↔ ∀ ρ, m.eval ρ e = m.eval ρ f) := by
  obtain ⟨h, hrefs⟩ := r.wellFormed
  refine ⟨fun i n hi run => h.node_spec hi run, fun i j n hi hj run run' => ?_,
    fun c m' valid run => ?_, hrefs, fun e f he hf => ?_⟩
  · obtain ⟨hi', hn⟩ := stored_of_node run
    obtain ⟨hj', hn'⟩ := stored_of_node run'
    exact h.unique hi hi' hj hj' (hn.trans hn'.symm)
  · have ext : m.Extends m' := by
      rcases run with ⟨es, run⟩ | ⟨fault, run⟩
      · exact (Call.later_of_ok h valid run).1.2
      · rw [Call.eq_of_error h valid run]
        exact .refl m
    refine ⟨fun i n run => ?_, fun e he ρ => ext.eval_eq h.toFounded he ρ⟩
    obtain ⟨hi, hn⟩ := stored_of_node run
    have h0 : i ≠ 0 := fun h0 => by rw [h0] at run; cases run
    rw [node_eq h0 (hi.trans ext.numNodes_le), ext.stored_eq h0 hi, hn]
  · exact ⟨fun same ρ => by rw [same], h.eq_of_eval_eq he hf⟩

/-- The edges of two variables are different, and so are their values. -/
theorem reached_canonical_pair : ∃ m, Reached m [⟨3⟩, ⟨2⟩, .one, .zero] ∧
    ((⟨3⟩ : Edge) = ⟨2⟩ ↔ ∀ ρ, m.eval ρ ⟨3⟩ = m.eval ρ ⟨2⟩) := by
  obtain ⟨m, r, hx, hy⟩ := reached_pair
  exact ⟨m, r, (reached_canonical r).2.2.2.2 ⟨3⟩ ⟨2⟩ hy hx⟩

/-- The program comes to an edge with the given value, and what the cache keeps behind it is
right. -/
def Computes (act : Op Edge) (m : Manager) (value : Assignment → Bool) : Prop :=
  ∃ r m', act m = .ok r m' ∧ m'.Holds r ∧ (∀ ρ, m'.eval ρ r = value ρ) ∧ m'.CacheSound

theorem Makes.computes {act : Op Edge} {m : Manager} {value : Assignment → Bool}
    (h : Makes act m value) : Computes act m value := by
  obtain ⟨r, m', run, n, hr, hval⟩ := h
  exact ⟨r, m', run, hr, hval, n.1.cached⟩

/-- **If-then-else and the operations derived from it.** -/
theorem reached_ite {m : Manager} {refs : List Edge} (r : Reached m refs) {f g k : Edge}
    {fs : List Edge} (hf : m.Holds f) (hg : m.Holds g) (hk : m.Holds k)
    (hfs : ∀ f ∈ fs, m.Holds f) :
    Computes (ite f g k) m (fun ρ => if m.eval ρ f then m.eval ρ g else m.eval ρ k) ∧
    Computes (conj f g) m (fun ρ => m.eval ρ f && m.eval ρ g) ∧
    Computes (disj f g) m (fun ρ => m.eval ρ f || m.eval ρ g) ∧
    Computes (exclusive f g) m (fun ρ => m.eval ρ f ^^ m.eval ρ g) ∧
    Computes (diff f g) m (fun ρ => m.eval ρ f && !m.eval ρ g) ∧
    Computes (conjAll fs) m (fun ρ => fs.all fun f => m.eval ρ f) := by
  have h := r.wellFormed.1
  exact ⟨(makes_ite h hf hg hk).computes, (makes_conj h hf hg).computes,
    (makes_disj h hf hg).computes, (makes_exclusive h hf hg).computes,
    (makes_diff h hf hg).computes, (makes_conjAll h hfs).computes⟩

/-- If-then-else over two variables, with a complement. -/
theorem reached_ite_pair : ∃ m, Reached m [⟨3⟩, ⟨2⟩, .one, .zero] ∧
    Computes (ite ⟨2⟩ ⟨-3⟩ ⟨3⟩) m (fun ρ =>
      if m.eval ρ ⟨2⟩ then m.eval ρ ⟨-3⟩ else m.eval ρ ⟨3⟩) := by
  obtain ⟨m, r, hx, hy⟩ := reached_pair
  have hny : m.Holds ⟨-3⟩ := holds_neg.mpr hy
  exact ⟨m, r, (reached_ite r hx hny hy fun _ hf => absurd hf List.not_mem_nil).1⟩

end Factbase.Diagram.Manager
