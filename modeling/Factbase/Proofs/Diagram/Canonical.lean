import Factbase.Proofs.Diagram.Meaning
import Mathlib.Data.Fintype.BigOperators

/-!
# Well-formed managers

The invariant of a manager (`Manager.WellFormed`): nodes are placed, reduced, regular and stored
once, and whatever the cache keeps is right.

* `Manager.Answers`: what it means for an edge to be the result of a cached operation;
* `WellFormed.eq_of_eval_eq`: **canonicity. Two edges with the same value under every assignment
  are the same edge**;
* `WellFormed.lt_rank_of_independent`: an edge that depends on no variable down to a level tests
  variables below that level only;
* `WellFormed.numNodes_le`: **a manager has no more nodes than there are functions of its
  variables.**
-/

namespace Factbase.Diagram

/-! ## 1. What a cache keeps -/

namespace Cache

variable {κ ν : Type}

/-- The value is kept under the key in some place. -/
def Keeps (c : Cache κ ν) (key : κ) (value : ν) : Prop :=
  ∃ p : Nat, c.places[p]? = some (some (key, value))

variable [Hashable κ] [BEq κ] [LawfulBEq κ]

/-- A look-up answers with a kept value only. -/
theorem keeps_of_find? {c : Cache κ ν} {key : κ} {value : ν} (h : c.find? key = some value) :
    c.Keeps key value := by
  unfold find? at h
  split at h
  · rename_i held kept hplace
    split at h
    · rename_i heq
      obtain rfl := beq_iff_eq.mp heq
      obtain rfl := Option.some.inj h
      exact ⟨c.placeOf held, Option.join_eq_some_iff.mp hplace⟩
    · cases h
  · cases h

omit [LawfulBEq κ] in
theorem get_eq (c : Cache κ ν) (key : κ) :
    (c.get key).1 = c.find? key ∧ (c.get key).2.places = c.places := by
  unfold get
  split
  · rename_i value h
    exact ⟨h.symm, rfl⟩
  · rename_i h
    exact ⟨h.symm, rfl⟩

omit [BEq κ] [LawfulBEq κ] in
theorem keeps_insert {c : Cache κ ν} {key key' : κ} {value value' : ν}
    (h : (c.insert key value).Keeps key' value') :
    (key' = key ∧ value' = value) ∨ c.Keeps key' value' := by
  obtain ⟨p, hp⟩ := h
  rw [show (c.insert key value).places =
    c.places.setIfInBounds (c.placeOf key) (some (key, value)) from rfl,
    Array.getElem?_setIfInBounds] at hp
  split at hp
  · split at hp
    · have e := Option.some.inj (Option.some.inj hp)
      exact Or.inl ⟨(congrArg Prod.fst e).symm, (congrArg Prod.snd e).symm⟩
    · cases hp
  · exact Or.inr ⟨p, hp⟩

omit [Hashable κ] [BEq κ] [LawfulBEq κ] in
theorem not_keeps_create {bits : Nat} {c : Cache κ ν} (h : create bits = .ok c) {key : κ}
    {value : ν} : ¬ c.Keeps key value := by
  rintro ⟨p, hp⟩
  unfold create at h
  split at h
  · cases h
  · obtain rfl := Except.ok.inj h
    rw [Array.getElem?_replicate] at hp
    split at hp <;> cases hp

end Cache

namespace Manager

/-! ## 2. Operations and their results -/

/-- The edge is the conjunction of the listed variables, from the top. -/
def IsVarSet (m : Manager) : Edge → List Nat → Prop
  | e, [] => e = .one
  | e, v :: vs => m.Holds e ∧ e.isTerminal = false ∧ e.negated = false ∧ m.varOf e = v ∧
      m.lowOf e = .zero ∧ m.IsVarSet (m.highOf e) vs

/-- The edge is true for some values of the listed variables, the others being as given. -/
def Somewhere (m : Manager) (vs : List Nat) (ρ : Assignment) (f : Edge) : Prop :=
  ∃ ρ' : Assignment, (∀ v, v ∉ vs → ρ' v = ρ v) ∧ m.eval ρ' f = true

/-- **The edge is the result of the operation.** -/
def Answers (m : Manager) : OpKey → Edge → Prop
  | .choose f g h, r => m.Holds f ∧ m.Holds g ∧ m.Holds h ∧ m.Holds r ∧
      ∀ ρ, m.eval ρ r = if m.eval ρ f then m.eval ρ g else m.eval ρ h
  | .project f vars, r => m.Holds f ∧ m.Holds vars ∧ m.Holds r ∧
      ∃ vs, m.IsVarSet vars vs ∧ ∀ ρ, m.eval ρ r = true ↔ m.Somewhere vs ρ f

/-- Every cached result is right. -/
def CacheSound (m : Manager) : Prop := ∀ key r, m.cache.Keeps key r → m.Answers key r

section Growth

variable {m m' : Manager} (g : m.Extends m') (h : m.Founded)

include g

theorem Extends.isVarSet : ∀ {vs : List Nat} {e : Edge}, m.IsVarSet e vs → m'.IsVarSet e vs
  | [], _, he => he
  | _ :: _, e, ⟨he, ht, hn, hv, hl, hh⟩ => by
      refine ⟨g.holds he, ht, hn, (g.varOf_eq he).trans hv, (g.lowOf_eq he).trans hl, ?_⟩
      rw [g.highOf_eq he]
      exact Extends.isVarSet hh

include h

theorem Extends.somewhere_iff {vs : List Nat} {ρ : Assignment} {f : Edge} (hf : m.Holds f) :
    m'.Somewhere vs ρ f ↔ m.Somewhere vs ρ f := by
  simp only [Somewhere, g.eval_eq h hf]

/-- Results stay right when nodes are appended. -/
theorem Extends.answers {key : OpKey} {r : Edge} (ha : m.Answers key r) : m'.Answers key r := by
  cases key with
  | choose f₁ f₂ f₃ =>
      obtain ⟨h1, h2, h3, hr, hval⟩ := ha
      refine ⟨g.holds h1, g.holds h2, g.holds h3, g.holds hr, fun ρ => ?_⟩
      rw [g.eval_eq h hr, g.eval_eq h h1, g.eval_eq h h2, g.eval_eq h h3, hval]
  | project f vars =>
      obtain ⟨hf, hvars, hr, vs, hset, hval⟩ := ha
      refine ⟨g.holds hf, g.holds hvars, g.holds hr, vs, g.isVarSet hset, fun ρ => ?_⟩
      rw [g.eval_eq h hr, g.somewhere_iff h hf, hval]

end Growth

/-! ## 3. The invariant -/

/-- Every decision can be found through the table's chains, and the leaf cannot. -/
def Consed (m : Manager) : Prop :=
  ∃ chain, m.nodes.Chained chain ∧ (∀ b, ∀ i ∈ chain b, 2 ≤ i) ∧
    ∀ i, 2 ≤ i → i ≤ m.numNodes → i ∈ chain (m.nodes.bucketOf (m.stored i))

/-- **The invariant of a manager.** -/
structure WellFormed (m : Manager) : Prop extends m.Founded where
  regular : ∀ i, 2 ≤ i → i ≤ m.numNodes → (m.stored i).high.negated = false
  reduced : ∀ i, 2 ≤ i → i ≤ m.numNodes → (m.stored i).low ≠ (m.stored i).high
  consed : m.Consed
  cached : m.CacheSound

section WellFormed

variable {m : Manager} (h : m.WellFormed) {e f : Edge}

include h

/-- No decision is stored twice. -/
theorem WellFormed.unique {i j : Nat} (hi : 2 ≤ i) (hi' : i ≤ m.numNodes) (hj : 2 ≤ j)
    (hj' : j ≤ m.numNodes) (same : m.stored i = m.stored j) : i = j := by
  obtain ⟨chain, hchained, _, hall⟩ := h.consed
  have hic := hall i hi hi'
  have hjc := hall j hj hj'
  rw [← same] at hjc
  refine hchained.distinct _ i hic j hjc ?_
  obtain ⟨n, hn⟩ := Table.exists_stored? (t := m.nodes) (i := i) (by omega) hi'
  obtain ⟨n', hn'⟩ := Table.exists_stored? (t := m.nodes) (i := j) (by omega) hj'
  rw [stored, stored, hn, hn'] at same
  rw [hn, hn', show n = n' from same]

theorem WellFormed.lowOf_ne_highOf (he : m.Holds e) (ht : e.isTerminal = false) :
    m.lowOf e ≠ m.highOf e := by
  intro same
  have hne := h.reduced _ (two_le_index he ht) he.2
  unfold lowOf highOf at same
  cases hn : e.negated with
  | false => rw [hn] at same; exact hne same
  | true => rw [hn] at same; exact hne (Edge.neg_inj.mp same)

/-- The sign of an edge is that of its high child. -/
theorem WellFormed.negated_highOf (he : m.Holds e) (ht : e.isTerminal = false) :
    (m.highOf e).negated = e.negated := by
  have hreg := h.regular _ (two_le_index he ht) he.2
  unfold highOf
  cases e.negated with
  | false => exact hreg
  | true => exact (Edge.negated_neg (h.placedAt he ht).highHeld.1).trans (by rw [hreg]; rfl)

/-- Edges with the same variable and children are the same. -/
theorem WellFormed.eq_of_children (he : m.Holds e) (hte : e.isTerminal = false) (hf : m.Holds f)
    (htf : f.isTerminal = false) (hv : m.varOf e = m.varOf f) (hl : m.lowOf e = m.lowOf f)
    (hh : m.highOf e = m.highOf f) : e = f := by
  have hsign : e.negated = f.negated := by
    rw [← h.negated_highOf he hte, ← h.negated_highOf hf htf, hh]
  have hlow : (m.stored e.index).low = (m.stored f.index).low := by
    unfold lowOf at hl
    rw [hsign] at hl
    cases hn : f.negated with
    | false => rw [hn] at hl; exact hl
    | true => rw [hn] at hl; exact Edge.neg_inj.mp hl
  have hhigh : (m.stored e.index).high = (m.stored f.index).high := by
    unfold highOf at hh
    rw [hsign] at hh
    cases hn : f.negated with
    | false => rw [hn] at hh; exact hh
    | true => rw [hn] at hh; exact Edge.neg_inj.mp hh
  have hnode : m.stored e.index = m.stored f.index := by
    cases hne : m.stored e.index with
    | mk v l r =>
        cases hnf : m.stored f.index with
        | mk v' l' r' =>
            unfold varOf at hv
            rw [hne, hnf] at hv hlow hhigh
            simp only at hv hlow hhigh
            rw [hv, hlow, hhigh]
  exact Edge.eq_of_index_of_negated
    (h.unique (two_le_index he hte) he.2 (two_le_index hf htf) hf.2 hnode) hsign

end WellFormed

section Children

variable {m : Manager} (h : m.Founded) {e : Edge} {ρ : Assignment}

include h

/-- The low child is the edge with its variable set to false. -/
theorem Founded.eval_lowOf (he : m.Holds e) (ht : e.isTerminal = false) :
    m.eval ρ (m.lowOf e) = m.eval (Function.update ρ (m.varOf e) false) e := by
  have hr := h.rank_lowOf he ht
  rw [rank_of_not_terminal ht] at hr
  rw [h.eval_node he ht, Function.update_self]
  exact (h.eval_update (h.holds_lowOf he ht) hr false).symm

theorem Founded.eval_highOf (he : m.Holds e) (ht : e.isTerminal = false) :
    m.eval ρ (m.highOf e) = m.eval (Function.update ρ (m.varOf e) true) e := by
  have hr := h.rank_highOf he ht
  rw [rank_of_not_terminal ht] at hr
  rw [h.eval_node he ht, Function.update_self]
  exact (h.eval_update (h.holds_highOf he ht) hr true).symm

end Children

/-! ## 4. Canonicity -/

section Canonicity

variable {m : Manager} (h : m.WellFormed)

include h

/-- An edge with a variable that the other one does not depend on has equal children, as far as
values go. -/
theorem WellFormed.children_agree {e f : Edge} (he : m.Holds e) (hf : m.Holds f)
    (hlt : m.rank e < m.rank f) (same : ∀ ρ, m.eval ρ e = m.eval ρ f) :
    e.isTerminal = false ∧ ∀ ρ, m.eval ρ (m.lowOf e) = m.eval ρ (m.highOf e) := by
  have ht : e.isTerminal = false := by
    cases hte : e.isTerminal with
    | false => rfl
    | true =>
        rw [rank_of_terminal hte] at hlt
        exact absurd (h.rank_le hf) (Nat.not_le.mpr hlt)
  rw [rank_of_not_terminal ht] at hlt
  refine ⟨ht, fun ρ => ?_⟩
  rw [h.eval_lowOf he ht, h.eval_highOf he ht, same, same, h.eval_update hf hlt,
    h.eval_update hf hlt]

/-- Leaves and nodes stand at different levels. -/
theorem WellFormed.isTerminal_eq {e f : Edge} (he : m.Holds e) (hf : m.Holds f)
    (same : m.rank e = m.rank f) : e.isTerminal = f.isTerminal := by
  cases hte : e.isTerminal with
  | true =>
      cases htf : f.isTerminal with
      | true => rfl
      | false =>
          have := h.rank_lt hf htf
          rw [rank_of_terminal hte] at same
          omega
  | false =>
      cases htf : f.isTerminal with
      | false => rfl
      | true =>
          have := h.rank_lt he hte
          rw [rank_of_terminal htf] at same
          omega

omit h in
theorem eq_of_leaves {e f : Edge} (hte : e.isTerminal = true) (htf : f.isTerminal = true)
    {ρ : Assignment} (same : m.eval ρ e = m.eval ρ f) : e = f := by
  rw [eval_leaf hte, eval_leaf htf] at same
  exact Edge.eq_of_index_of_negated
    ((Edge.isTerminal_eq_true.mp hte).trans (Edge.isTerminal_eq_true.mp htf).symm)
    (Bool.not_inj same)

/-- **Canonicity: edges with the same value under every assignment are the same.** -/
theorem WellFormed.eq_of_eval_eq {e f : Edge} (he : m.Holds e) (hf : m.Holds f)
    (same : ∀ ρ, m.eval ρ e = m.eval ρ f) : e = f := by
  obtain ⟨n, hen, hfn⟩ : ∃ n, e.index < n ∧ f.index < n :=
    ⟨max e.index f.index + 1, by omega, by omega⟩
  induction n generalizing e f with
  | zero => exact absurd hen (Nat.not_lt_zero _)
  | succ n ih =>
      -- the children of an edge lie below it, so that the induction applies to any two of them
      have hchildren : ∀ e, m.Holds e → e.isTerminal = false → e.index < n + 1 →
          ¬ ∀ ρ, m.eval ρ (m.lowOf e) = m.eval ρ (m.highOf e) := fun e he ht hlt agree =>
        h.lowOf_ne_highOf he ht (ih (h.holds_lowOf he ht) (h.holds_highOf he ht) agree
          (by have := h.index_lowOf_lt he ht; omega)
          (by have := h.index_highOf_lt he ht; omega))
      rcases Nat.lt_trichotomy (m.rank e) (m.rank f) with hlt | heq | hgt
      · obtain ⟨ht, agree⟩ := h.children_agree he hf hlt same
        exact absurd agree (hchildren e he ht hen)
      · cases hte : e.isTerminal with
        | true =>
            have htf := (h.isTerminal_eq he hf heq).symm.trans hte
            exact eq_of_leaves hte htf (same fun _ => false)
        | false =>
            have htf := (h.isTerminal_eq he hf heq).symm.trans hte
            have hvar : m.varOf e = m.varOf f :=
              h.varOf_eq he hte (h.allocated hf htf) (by rw [heq, rank_of_not_terminal htf])
            refine h.eq_of_children he hte hf htf hvar ?_ ?_
            · refine ih (h.holds_lowOf he hte) (h.holds_lowOf hf htf) (fun ρ => ?_)
                (by have := h.index_lowOf_lt he hte; omega)
                (by have := h.index_lowOf_lt hf htf; omega)
              rw [h.eval_lowOf he hte, h.eval_lowOf hf htf, hvar, same]
            · refine ih (h.holds_highOf he hte) (h.holds_highOf hf htf) (fun ρ => ?_)
                (by have := h.index_highOf_lt he hte; omega)
                (by have := h.index_highOf_lt hf htf; omega)
              rw [h.eval_highOf he hte, h.eval_highOf hf htf, hvar, same]
      · obtain ⟨ht, agree⟩ := h.children_agree hf he hgt fun ρ => (same ρ).symm
        exact absurd agree (hchildren f hf ht hfn)

/-- An edge that depends on no variable down to a level lies below that level. -/
theorem WellFormed.lt_rank_of_independent {e : Edge} (he : m.Holds e) {l : Nat}
    (hl : l < m.numVars) (free : ∀ v, m.order.levelAt v ≤ l → ∀ ρ b,
      m.eval (Function.update ρ v b) e = m.eval ρ e) : l < m.rank e := by
  refine Nat.not_le.mp fun hle => ?_
  have ht : e.isTerminal = false := by
    cases hte : e.isTerminal with
    | false => rfl
    | true =>
        rw [rank_of_terminal hte] at hle
        exact absurd hl (Nat.not_lt.mpr hle)
  rw [rank_of_not_terminal ht] at hle
  refine h.lowOf_ne_highOf he ht
    (h.eq_of_eval_eq (h.holds_lowOf he ht) (h.holds_highOf he ht) fun ρ => ?_)
  rw [h.eval_lowOf he ht, h.eval_highOf he ht, free _ hle, free _ hle]

end Canonicity

/-! ## 5. The number of nodes -/

/-- The values of a node under all settings of the manager's variables. -/
def truthTable (m : Manager) (node : Fin m.numNodes) (bits : Fin m.numVars → Bool) : Bool :=
  m.eval (fun v => if h : v - 1 < m.numVars then bits ⟨v - 1, h⟩ else false) (.ofIndex (node + 1))

/-- Different nodes have different values. -/
theorem WellFormed.truthTable_injective {m : Manager} (h : m.WellFormed) :
    Function.Injective m.truthTable := by
  intro i j same
  have hholds : ∀ k : Fin m.numNodes, m.Holds (.ofIndex (k + 1)) := fun k =>
    holds_ofIndex.mpr ⟨Nat.succ_ne_zero k, k.isLt⟩
  -- an assignment counts only for the variables of the manager
  have hvalue : ∀ (k : Fin m.numNodes) (ρ : Assignment),
      m.eval ρ (.ofIndex (k + 1)) = m.truthTable k fun v => ρ (v + 1) := fun k ρ =>
    h.eval_congr (hholds k) fun v hv _ => by
      have hlt : v - 1 < m.numVars := by
        have hle : v ≤ m.numVars := hv.2
        have hne := hv.1
        omega
      rw [dif_pos hlt]
      show ρ v = ρ (v - 1 + 1)
      rw [Nat.sub_add_cancel (Nat.one_le_iff_ne_zero.mpr hv.1)]
  have hedge := h.eq_of_eval_eq (hholds i) (hholds j) fun ρ => by rw [hvalue, hvalue, same]
  have hindex := congrArg Edge.index hedge
  rw [Edge.index_ofIndex, Edge.index_ofIndex] at hindex
  exact Fin.ext (Nat.succ.inj hindex)

/-- **A manager has no more nodes than there are functions of its variables.** -/
theorem WellFormed.numNodes_le {m : Manager} (h : m.WellFormed) :
    m.numNodes ≤ 2 ^ 2 ^ m.numVars := by
  have hcard := Fintype.card_le_of_injective _ h.truthTable_injective
  simpa using hcard

end Manager

end Factbase.Diagram
