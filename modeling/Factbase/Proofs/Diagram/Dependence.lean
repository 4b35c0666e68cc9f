import Factbase.Proofs.Diagram.Counting
import Factbase.Proofs.Diagram.Histories
import Mathlib.Order.Interval.Finset.Nat

/-!
# Variables that matter

An edge depends on a variable where its value changes with it. In a well-formed manager these are
the variables that its decisions test.

* `Matters m e v`: the value of an edge depends on a variable;
* `WellFormed.matters_varOf`: the variable that an edge tests does;
* `dependsOn_of_matters`: **the variables that matter fix the value**;
* `support`: all of them, as a finite set.
-/

namespace Factbase.Diagram.Manager

/-- The value of the edge depends on the variable. -/
def Matters (m : Manager) (e : Edge) (v : Nat) : Prop :=
  ∃ ρ : Assignment, m.eval (Function.update ρ v false) e ≠ m.eval (Function.update ρ v true) e

/-! ## 1. What matters, and what does not -/

section Matters

variable {m : Manager} {e : Edge} {v : Nat}

/-- What does not matter may take any value. -/
theorem eval_update_of_not_matters (hv : ¬ m.Matters e v) (ρ : Assignment) (b : Bool) :
    m.eval (Function.update ρ v b) e = m.eval ρ e := by
  have same : ∀ b, m.eval (Function.update ρ v b) e = m.eval (Function.update ρ v true) e := by
    intro b
    cases b with
    | true => rfl
    | false => exact not_not.mp fun hne => hv ⟨ρ, hne⟩
  rw [same, ← same (ρ v), Function.update_eq_self]

variable (h : m.Founded) (he : m.Holds e)

include h he

/-- What matters is a variable of the manager. -/
theorem Matters.allocated (hv : m.Matters e v) : m.order.Allocated v := by
  obtain ⟨ρ, hne⟩ := hv
  refine not_not.mp fun hnot => hne (h.eval_congr he fun w hw _ => ?_)
  have hwv : w ≠ v := fun heq => hnot (heq ▸ hw)
  rw [Function.update_of_ne hwv, Function.update_of_ne hwv]

/-- What matters to a child matters to the edge. -/
theorem Matters.of_child (ht : e.isTerminal = false) {b : Bool}
    (hv : m.Matters (if b then m.highOf e else m.lowOf e) v) : m.Matters e v := by
  have hvalue : ∀ ρ, m.eval ρ (if b then m.highOf e else m.lowOf e) =
      m.eval (Function.update ρ (m.varOf e) b) e := fun ρ => by
    cases b with
    | true => exact h.eval_highOf he ht
    | false => exact h.eval_lowOf he ht
  obtain ⟨ρ, hne⟩ := hv
  rw [hvalue, hvalue] at hne
  have hvar : m.varOf e ≠ v := fun heq => by
    rw [heq, Function.update_idem, Function.update_idem] at hne
    exact hne rfl
  refine ⟨Function.update ρ (m.varOf e) b, ?_⟩
  rwa [Function.update_comm hvar.symm, Function.update_comm hvar.symm] at hne

end Matters

/-- The variable that an edge tests matters to it. -/
theorem WellFormed.matters_varOf {m : Manager} (h : m.WellFormed) {e : Edge} (he : m.Holds e)
    (ht : e.isTerminal = false) : m.Matters e (m.varOf e) := by
  by_contra hnot
  have hfree := eval_update_of_not_matters hnot
  refine h.lowOf_ne_highOf he ht
    (h.eq_of_eval_eq (h.holds_lowOf he ht) (h.holds_highOf he ht) fun ρ => ?_)
  rw [h.eval_lowOf he ht, h.eval_highOf he ht, hfree, hfree]

/-- **The variables that matter to an edge fix its value.** -/
theorem dependsOn_of_matters {m : Manager} (h : m.WellFormed) {V : Finset Nat} {e : Edge}
    (he : m.Holds e) (hV : ∀ v, m.Matters e v → v ∈ V) : m.DependsOn V e := by
  refine h.induction (motive := fun e => (∀ v, m.Matters e v → v ∈ V) → m.DependsOn V e)
    (fun e _ ht _ ρ ρ' _ => ?_) (fun e he ht ihl ihh hV ρ ρ' agree => ?_) he hV
  · rw [eval_leaf ht, eval_leaf ht]
  · have hlow := ihl fun v hv => hV v (hv.of_child (b := false) h.toFounded he ht)
    have hhigh := ihh fun v hv => hV v (hv.of_child (b := true) h.toFounded he ht)
    rw [h.eval_node he ht, h.eval_node he ht, agree _ (hV _ (h.matters_varOf he ht)),
      hlow ρ ρ' agree, hhigh ρ ρ' agree]

/-! ## 2. All that matters -/

open Classical in
/-- The variables of the manager that matter to an edge. -/
noncomputable def support (m : Manager) (e : Edge) : Finset Nat :=
  (Finset.Icc 1 m.numVars).filter (m.Matters e)

theorem mem_support_iff {m : Manager} (h : m.Founded) {e : Edge} (he : m.Holds e) {v : Nat} :
    v ∈ m.support e ↔ m.Matters e v := by
  classical
  refine ⟨fun hv => (Finset.mem_filter.mp hv).2, fun hv => Finset.mem_filter.mpr ⟨?_, hv⟩⟩
  obtain ⟨h0, hle⟩ := hv.allocated h he
  exact Finset.mem_Icc.mpr ⟨Nat.one_le_iff_ne_zero.mpr h0, hle⟩

theorem dependsOn_support {m : Manager} (h : m.WellFormed) {e : Edge} (he : m.Holds e) :
    m.DependsOn (m.support e) e :=
  dependsOn_of_matters h he fun _ => (mem_support_iff h.toFounded he).mpr

end Factbase.Diagram.Manager
