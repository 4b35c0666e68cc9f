import Factbase.Diagram.Count
import Factbase.Proofs.Diagram.Canonical
import Mathlib.Data.Finset.Powerset
import Std.Data.HashMap.Lemmas

/-!
# Counting is exact

An assignment of a finite set `V` of variables is a subset of `V`, the variables that are true.

* `models m V e`: the assignments of `V` that satisfy `e`;
* `two_mul_card_models`: **the counts of both children add up to twice the count of the edge**, so
  that halving loses nothing, as long as the edge depends on variables of `V` only;
* `card_models_of_subset`: every variable that an edge does not depend on doubles its models;
* `satCount_eq`: **the count of an edge is the number of the assignments that satisfy it**, whatever
  has been counted before.
-/

namespace Factbase.Diagram.Manager

/-- The assignment under which exactly the variables of a set are true. -/
def trueOn (A : Finset Nat) : Assignment := fun v => decide (v ∈ A)

/-- The assignments of `V` that satisfy an edge. -/
def models (m : Manager) (V : Finset Nat) (e : Edge) : Finset (Finset Nat) :=
  V.powerset.filter fun A => m.eval (trueOn A) e = true

/-- The value of the edge is fixed by the variables of `V`. -/
def DependsOn (m : Manager) (V : Finset Nat) (e : Edge) : Prop :=
  ∀ ρ ρ' : Assignment, (∀ v ∈ V, ρ v = ρ' v) → m.eval ρ e = m.eval ρ' e

/-! ## 1. Splitting on a variable -/

/-- A set of assignments over one more variable splits into those where it is false and those where
it is true. -/
theorem card_filter_powerset_insert {W : Finset Nat} {v : Nat} (hv : v ∉ W) (p : Finset Nat → Prop)
    [DecidablePred p] : ((insert v W).powerset.filter p).card =
      (W.powerset.filter p).card + (W.powerset.filter fun A => p (insert v A)).card := by
  have hfree : ∀ A ∈ W.powerset, v ∉ A := fun A hA hmem => hv (Finset.mem_powerset.mp hA hmem)
  rw [Finset.powerset_insert, Finset.filter_union, Finset.card_union_of_disjoint,
    Finset.filter_image, Finset.card_image_of_injOn]
  · intro A hA B hB same
    have hA := hfree A (Finset.mem_filter.mp hA).1
    have hB := hfree B (Finset.mem_filter.mp hB).1
    rw [← Finset.erase_insert hA, ← Finset.erase_insert hB, show insert v A = insert v B from same]
  · refine Finset.disjoint_left.mpr fun A hA hA' => ?_
    obtain ⟨B, _, rfl⟩ := Finset.mem_image.mp (Finset.mem_filter.mp hA').1
    exact hfree _ (Finset.mem_filter.mp hA).1 (Finset.mem_insert_self v B)

theorem trueOn_insert (A : Finset Nat) (v : Nat) :
    trueOn (insert v A) = Function.update (trueOn A) v true := by
  funext w
  by_cases e : w = v
  · rw [e, Function.update_self, trueOn, decide_eq_true (Finset.mem_insert_self v A)]
  · rw [Function.update_of_ne e, trueOn, trueOn, decide_eq_decide, Finset.mem_insert]
    exact or_iff_right e

theorem trueOn_update_false {A : Finset Nat} {v : Nat} (hv : v ∉ A) :
    Function.update (trueOn A) v false = trueOn A := by
  rw [← decide_eq_false hv]
  exact Function.update_eq_self v (trueOn A)

/-- An edge that a variable does not matter to has as many models with it as without. -/
theorem card_models_insert {m : Manager} {e : Edge} {W : Finset Nat} {v : Nat} (hv : v ∉ W)
    (free : ∀ ρ b, m.eval (Function.update ρ v b) e = m.eval ρ e) :
    (m.models (insert v W) e).card = 2 * (m.models W e).card := by
  have same : ∀ A, m.eval (trueOn (insert v A)) e = m.eval (trueOn A) e := fun A => by
    rw [trueOn_insert, free]
  rw [models, card_filter_powerset_insert hv, models, Nat.two_mul]
  simp only [same]

/-- **Every further variable doubles the number of models.** -/
theorem card_models_of_subset {m : Manager} {V W : Finset Nat} {e : Edge} (hd : m.DependsOn V e)
    (hsub : V ⊆ W) : (m.models W e).card = 2 ^ (W \ V).card * (m.models V e).card := by
  have hmore : ∀ D : Finset Nat, Disjoint D V →
      (m.models (D ∪ V) e).card = 2 ^ D.card * (m.models V e).card := by
    intro D
    induction D using Finset.induction_on with
    | empty =>
        intro _
        rw [Finset.empty_union, Finset.card_empty, Nat.pow_zero, Nat.one_mul]
    | insert v D hv ih =>
        intro hdisjoint
        obtain ⟨hvV, hD⟩ := Finset.disjoint_insert_left.mp hdisjoint
        have free : ∀ (ρ : Assignment) b, m.eval (Function.update ρ v b) e = m.eval ρ e :=
          fun ρ b => hd _ _ fun w hw => Function.update_of_ne (ne_of_mem_of_not_mem hw hvV) _ _
        have hnot : v ∉ D ∪ V := fun hmem => (Finset.mem_union.mp hmem).elim hv hvV
        rw [Finset.insert_union, card_models_insert hnot free, ih hD,
          Finset.card_insert_of_notMem hv, Nat.pow_succ, ← Nat.mul_assoc, Nat.mul_comm 2]
  have h := hmore (W \ V) Finset.sdiff_disjoint
  rwa [Finset.sdiff_union_of_subset hsub] at h

section Splitting

variable {m : Manager} (h : m.Founded) {e : Edge} (he : m.Holds e) {W : Finset Nat}

include h he

/-- The models of an edge are those of its children, over the other variables. -/
theorem card_models_node (hv : m.varOf e ∉ W) (ht : e.isTerminal = false) :
    (m.models (insert (m.varOf e) W) e).card =
      (m.models W (m.lowOf e)).card + (m.models W (m.highOf e)).card := by
  rw [models, card_filter_powerset_insert hv, models, models]
  have low : ∀ A ∈ W.powerset,
      (m.eval (trueOn A) e = true ↔ m.eval (trueOn A) (m.lowOf e) = true) := fun A hA => by
    rw [h.eval_lowOf he ht, trueOn_update_false fun hmem => hv (Finset.mem_powerset.mp hA hmem)]
  have high : ∀ A ∈ W.powerset, (m.eval (trueOn (insert (m.varOf e) A)) e = true ↔
      m.eval (trueOn A) (m.highOf e) = true) := fun A _ => by
    rw [h.eval_highOf he ht, trueOn_insert]
  rw [Finset.filter_congr low, Finset.filter_congr high]

/-- **The counts of both children add up to twice the count of the edge.** -/
theorem two_mul_card_models {V : Finset Nat} (ht : e.isTerminal = false) (hv : m.varOf e ∈ V) :
    2 * (m.models V e).card = (m.models V (m.lowOf e)).card + (m.models V (m.highOf e)).card := by
  have hl := h.rank_lowOf he ht
  have hh := h.rank_highOf he ht
  rw [rank_of_not_terminal ht] at hl hh
  have hnot := Finset.notMem_erase (m.varOf e) V
  rw [← Finset.insert_erase hv, card_models_node h he hnot ht,
    card_models_insert hnot fun ρ b => h.eval_update (h.holds_lowOf he ht) hl b,
    card_models_insert hnot fun ρ b => h.eval_update (h.holds_highOf he ht) hh b]
  omega

omit h he in
theorem card_models_le (m : Manager) (V : Finset Nat) (e : Edge) :
    (m.models V e).card ≤ 2 ^ V.card := by
  rw [← Finset.card_powerset]
  exact Finset.card_filter_le _ _

theorem card_models_neg (V : Finset Nat) :
    (m.models V (-e)).card = 2 ^ V.card - (m.models V e).card := by
  have hsplit := Finset.card_filter_add_card_filter_not (s := V.powerset)
    fun A => m.eval (trueOn A) e = true
  rw [Finset.card_powerset] at hsplit
  have hneg : (m.models V (-e)).card =
      (V.powerset.filter fun A => ¬ m.eval (trueOn A) e = true).card := by
    rw [models]
    refine congrArg Finset.card (Finset.filter_congr fun A _ => ?_)
    rw [h.eval_neg he, Bool.not_eq_true', Bool.not_eq_true]
  rw [hneg]
  unfold models
  omega

/-- The count of an edge from those of its node's children, as they are stored. -/
theorem card_models_stored {V : Finset Nat} (ht : e.isTerminal = false) (hv : m.varOf e ∈ V) :
    (if e.negated = true then
      2 ^ V.card -
        ((m.models V (m.stored e.index).low).card + (m.models V (m.stored e.index).high).card) / 2
    else
      ((m.models V (m.stored e.index).low).card + (m.models V (m.stored e.index).high).card) / 2) =
      (m.models V e).card := by
  have hsum := two_mul_card_models h he ht hv
  have placed := h.placedAt he ht
  cases hn : e.negated with
  | false =>
      rw [if_neg Bool.false_ne_true]
      rw [show m.lowOf e = (m.stored e.index).low by rw [lowOf, hn]; rfl,
        show m.highOf e = (m.stored e.index).high by rw [highOf, hn]; rfl] at hsum
      omega
  | true =>
      rw [if_pos rfl]
      rw [show m.lowOf e = -(m.stored e.index).low by rw [lowOf, hn]; rfl,
        show m.highOf e = -(m.stored e.index).high by rw [highOf, hn]; rfl,
        card_models_neg h placed.lowHeld, card_models_neg h placed.highHeld] at hsum
      have hlow := card_models_le m V (m.stored e.index).low
      have hhigh := card_models_le m V (m.stored e.index).high
      have hself := card_models_le m V e
      omega

end Splitting

theorem card_models_one (m : Manager) (V : Finset Nat) : (m.models V .one).card = 2 ^ V.card := by
  rw [models, Finset.filter_true_of_mem fun A _ => eval_one m _, Finset.card_powerset]

theorem card_models_zero (m : Manager) (V : Finset Nat) : (m.models V .zero).card = 0 := by
  rw [models, Finset.filter_false_of_mem fun A _ => by rw [eval_zero]; decide, Finset.card_empty]

/-! ## 2. Dependence -/

section Dependence

variable {m : Manager} (h : m.WellFormed) {e : Edge} (he : m.Holds e) {V : Finset Nat}
  (hd : m.DependsOn V e)

include h he hd

/-- An edge depends on the variable that it tests. -/
theorem DependsOn.varOf_mem (ht : e.isTerminal = false) : m.varOf e ∈ V := by
  by_contra hv
  refine h.lowOf_ne_highOf he ht
    (h.eq_of_eval_eq (h.holds_lowOf he ht) (h.holds_highOf he ht) fun ρ => ?_)
  rw [h.eval_lowOf he ht, h.eval_highOf he ht]
  refine hd _ _ fun w hw => ?_
  have hne : w ≠ m.varOf e := fun e => hv (e ▸ hw)
  rw [Function.update_of_ne hne, Function.update_of_ne hne]

theorem DependsOn.children (ht : e.isTerminal = false) :
    m.DependsOn V (m.lowOf e) ∧ m.DependsOn V (m.highOf e) := by
  have update : ∀ (ρ ρ' : Assignment) (b : Bool), (∀ v ∈ V, ρ v = ρ' v) → ∀ v ∈ V,
      Function.update ρ (m.varOf e) b v = Function.update ρ' (m.varOf e) b v :=
    fun ρ ρ' b agree v hv => by
      by_cases e' : v = m.varOf e
      · rw [e', Function.update_self, Function.update_self]
      · rw [Function.update_of_ne e', Function.update_of_ne e', agree v hv]
  refine ⟨fun ρ ρ' agree => ?_, fun ρ ρ' agree => ?_⟩
  · rw [h.eval_lowOf he ht, h.eval_lowOf he ht, hd _ _ (update ρ ρ' false agree)]
  · rw [h.eval_highOf he ht, h.eval_highOf he ht, hd _ _ (update ρ ρ' true agree)]

theorem DependsOn.complementIf (flip : Bool) : m.DependsOn V (e.complementIf flip) :=
  fun ρ ρ' agree => by
    rw [h.eval_complementIf he, h.eval_complementIf he, hd ρ ρ' agree]

/-- The children of the node that is stored, without the complement of the edge. -/
theorem DependsOn.stored (ht : e.isTerminal = false) :
    m.DependsOn V (m.stored e.index).low ∧ m.DependsOn V (m.stored e.index).high := by
  obtain ⟨hlow, hhigh⟩ := hd.children h he ht
  have hlow := hlow.complementIf h (h.holds_lowOf he ht) e.negated
  have hhigh := hhigh.complementIf h (h.holds_highOf he ht) e.negated
  rw [lowOf, Edge.complementIf_complementIf] at hlow
  rw [highOf, Edge.complementIf_complementIf] at hhigh
  exact ⟨hlow, hhigh⟩

end Dependence

/-! ## 3. The count -/

/-- What has been counted so far is right. -/
def Counted (m : Manager) (V : Finset Nat) (memo : Counts) : Prop :=
  ∀ (e : Edge) (k : Nat), memo[e]? = some k → k = (m.models V e).card

/-- The count comes to a number, and what has been counted stays right. -/
def Tallies (m : Manager) (V : Finset Nat) (act : StateT Counts (Except Fault) Nat) (k : Nat) :
    Prop :=
  ∀ memo, m.Counted V memo → ∃ memo', act memo = .ok (k, memo') ∧ m.Counted V memo'

section Counting

variable {m : Manager} {V : Finset Nat}

theorem tallies_pure (k : Nat) : m.Tallies V (pure k) k := fun memo hm => ⟨memo, rfl, hm⟩

theorem Tallies.bind {act : StateT Counts (Except Fault) Nat}
    {next : Nat → StateT Counts (Except Fault) Nat} {k l : Nat} (h : m.Tallies V act k)
    (hn : m.Tallies V (next k) l) : m.Tallies V (act >>= next) l := fun memo hm => by
  obtain ⟨memo', run, hm'⟩ := h memo hm
  obtain ⟨memo'', run', hm''⟩ := hn memo' hm'
  refine ⟨memo'', ?_, hm''⟩
  show Except.bind (act memo) (fun r => next r.1 r.2) = _
  rw [run]
  exact run'

theorem tallies_ask {α : Type} {question : Except Fault α} {a : α}
    {next : α → StateT Counts (Except Fault) Nat} {k : Nat} (hq : question = .ok a)
    (hn : m.Tallies V (next a) k) : m.Tallies V (liftM question >>= next) k := by
  rw [hq]
  exact hn

/-- What has been counted before need not be counted again. -/
theorem tallies_known {e : Edge} {act : StateT Counts (Except Fault) Nat}
    (h : m.Tallies V act (m.models V e).card) :
    m.Tallies V (do
      if let some known := (← get)[e]? then
        return known
      act) (m.models V e).card := fun memo hm => by
  cases hget : memo[e]? with
  | none =>
      obtain ⟨memo', run, hm'⟩ := h memo hm
      refine ⟨memo', ?_, hm'⟩
      show (match memo[e]? with
        | some known => (pure known : StateT Counts (Except Fault) Nat)
        | _ => act) memo = _
      rw [hget]
      exact run
  | some known =>
      refine ⟨memo, ?_, hm⟩
      show (match memo[e]? with
        | some known => (pure known : StateT Counts (Except Fault) Nat)
        | _ => act) memo = _
      rw [hget, ← hm e known hget]
      rfl

/-- A right count may be kept. -/
theorem tallies_keep {e : Edge} {k : Nat} (hk : k = (m.models V e).card) :
    m.Tallies V (do modify (·.insert e k); return k) k := fun memo hm => by
  refine ⟨memo.insert e k, rfl, fun e' k' hget => ?_⟩
  rw [Std.HashMap.getElem?_insert] at hget
  split at hget
  · rename_i same
    rw [← Option.some.inj hget, ← beq_iff_eq.mp same, hk]
  · exact hm e' k' hget

variable (h : m.WellFormed)

include h

/-- **Counting within a depth.** -/
theorem tallies_countWithin : ∀ (depth : Nat) {e : Edge}, m.Holds e → m.DependsOn V e →
    e.index < depth →
    m.Tallies V (m.countWithin (2 ^ V.card) depth e) (m.models V e).card := by
  intro depth
  induction depth with
  | zero => exact fun _ _ hlt => absurd hlt (Nat.not_lt_zero _)
  | succ depth ih =>
      intro e he hd hlt
      unfold countWithin
      by_cases hzero : e = .zero
      · rw [if_pos hzero, hzero, card_models_zero]
        exact tallies_pure 0
      rw [if_neg hzero]
      by_cases hone : e = .one
      · rw [if_pos hone, hone, card_models_one]
        exact tallies_pure _
      rw [if_neg hone]
      have ht : e.isTerminal = false := by
        rw [← Bool.not_eq_true, Edge.isTerminal_iff]
        exact fun hor => hor.elim hone hzero
      have placed := h.placedAt he ht
      obtain ⟨hdl, hdh⟩ := hd.stored h he ht
      have hl := placed.lowBefore
      have hh := placed.highBefore
      refine tallies_known (tallies_ask (node_eq he.1 he.2) ?_)
      refine (ih placed.lowHeld hdl (by omega)).bind ((ih placed.highHeld hdh (by omega)).bind ?_)
      show m.Tallies V (do modify (·.insert e _); return _) _
      rw [card_models_stored h.toFounded he ht (hd.varOf_mem h he ht)]
      exact tallies_keep rfl

/-- **The count of an edge is the number of the assignments that satisfy it**, over any variables
that it depends on and more. -/
theorem satCount_eq {f : Edge} (hf : m.Holds f) (hd : m.DependsOn V f) :
    m.satCount f V.card = .ok (m.models V f).card := by
  obtain ⟨memo, run, _⟩ := tallies_countWithin h (m.numNodes + 1) hf hd (Nat.lt_succ_of_le hf.2) ∅
    fun e k hget => by rw [Std.HashMap.getElem?_empty] at hget; cases hget
  unfold satCount StateT.run'
  rw [show twoPow V.card = 2 ^ V.card from rfl, run]
  rfl

end Counting

end Factbase.Diagram.Manager
