import Factbase.Diagram.Body.Reader
import Factbase.Proofs.Diagram.Cubes
import Std.Data.HashMap.Lemmas

/-!
# Rebuilding from text

Whatever the text is, reading it leaves a well-formed manager, and a diagram that is read is one.
Only the counterparts of the writer's variables matter: they have to be variables of the reader.

* `Body.read_target`: every decision that is read has such a counterpart;
* `ends_readBody`: **reading a text comes to an edge or to an error, on any text.**
-/

namespace Factbase.Diagram

namespace Body

/-! ## 1. What is read -/

section Reading

variable {remap : Nat → Option Nat} {varCount : Nat}

/-- Every decision that is read has a counterpart for its variable. -/
theorem readStep_target {known : Known} {n : Nat} {cs : List Char} {step : Step}
    (h : readStep remap varCount known n cs = .ok step) : ∃ v, remap v = some step.target := by
  unfold readStep at h
  split at h
  · obtain ⟨id, _, h⟩ := ok_of_bind h
    obtain ⟨_, h⟩ := ok_of_unless h
    obtain ⟨_, h⟩ := ok_of_unless h
    obtain ⟨v, _, h⟩ := ok_of_bind h
    obtain ⟨_, h⟩ := ok_of_unless h
    obtain ⟨_, h⟩ := ok_of_unless h
    cases hv : remap v.toNat with
    | none => rw [hv] at h; cases h
    | some target =>
        rw [hv] at h
        obtain ⟨_, _, h⟩ := ok_of_bind h
        obtain ⟨_, _, h⟩ := ok_of_bind h
        obtain ⟨_, _, h⟩ := ok_of_bind h
        obtain ⟨_, _, h⟩ := ok_of_bind h
        obtain rfl := Except.ok.inj h
        exact ⟨v.toNat, hv⟩
  · cases h

theorem readLines_target : ∀ (count : Nat) {known : Known} {lines : List NumberedLine},
    ∀ step ∈ (readLines remap varCount count known lines).steps,
      ∃ v, remap v = some step.target := by
  intro count
  induction count with
  | zero =>
      intro known lines step hstep
      cases lines <;> cases hstep
  | succ count ih =>
      intro known lines step hstep
      cases lines with
      | nil => cases hstep
      | cons line lines =>
          rw [readLines] at hstep
          split at hstep
          · cases hstep
          · rename_i read hread
            obtain ⟨_, _, hread⟩ := ok_of_bind hread
            rcases List.mem_cons.mp hstep with rfl | hstep
            · exact readStep_target hread
            · exact ih step hstep

/-- **Every decision of a text that is read has a counterpart for its variable.** -/
theorem read_target {lines : List (Option (List Char))} :
    ∀ step ∈ (read remap lines).steps, ∃ v, remap v = some step.target := by
  intro step hstep
  unfold read at hstep
  split at hstep
  · cases hstep
  · split at hstep
    · cases hstep
    · exact readLines_target _ step hstep

end Reading

/-! ## 2. What is rebuilt -/

/-- All edges that are rebuilt lead to stored nodes. -/
def Built.Held (built : Built) (m : Manager) : Prop :=
  ∀ (id : Nat) (e : Edge), built[id]? = some e → m.Holds e

theorem held_empty (m : Manager) : Built.Held ∅ m := by
  intro id e he
  rw [Std.HashMap.getElem?_empty] at he
  cases he

theorem Built.Held.decode {built : Built} {m : Manager} (h : built.Held m) (hm : m.Founded)
    (edge : Int) : m.Holds (built.decode edge) := by
  refine Manager.holds_complementIf.mpr ?_
  by_cases hleaf : edge.natAbs = 1
  · rw [if_pos hleaf]
    exact hm.holds_one
  · rw [if_neg hleaf, Std.HashMap.getD_eq_getD_getElem?]
    cases hget : built[edge.natAbs]? with
    | none => exact hm.holds_one
    | some e => exact h _ e hget

theorem Built.Held.insert {built : Built} {m : Manager} (h : built.Held m) {id : Nat} {e : Edge}
    (he : m.Holds e) : Built.Held (Std.HashMap.insert built id e) m := by
  intro id' e' hget
  rw [Std.HashMap.getElem?_insert] at hget
  split at hget
  · obtain rfl := Option.some.inj hget
    exact he
  · exact h id' e' hget

end Body

namespace Manager

section Rebuilding

variable {m : Manager} (h : m.WellFormed)

include h

theorem ends_buildStep {built : Body.Built} (hb : built.Held m) {step : Body.Step}
    (ht : m.order.Allocated step.target) :
    Ends (buildStep built step) m fun built' m' => m.Next m' ∧ built'.Held m' := by
  unfold buildStep
  refine Ends.bind (makes_mkVar h ht) fun x m₁ ⟨n₁, hx, _⟩ => ?_
  have hhigh := n₁.holds (hb.decode h.toFounded step.high)
  have hlow := n₁.holds (hb.decode h.toFounded step.low)
  refine Ends.bind (makes_ite n₁.1 hx hhigh hlow) fun e m₂ ⟨n₂, he, _⟩ => ?_
  have n := n₁.trans n₂
  exact ends_pure ⟨n, Body.Built.Held.insert (fun id e he => n.holds (hb id e he)) he⟩

/-- Decisions are rebuilt one after the other. -/
theorem ends_buildSteps {steps : List Body.Step}
    (ht : ∀ step ∈ steps, m.order.Allocated step.target) :
    Ends (steps.foldlM buildStep ∅) m fun built m' => m.Next m' ∧ built.Held m' := by
  have loop := Ends.foldlM (f := buildStep) (i := fun rest built m' => m.Next m' ∧
      built.Held m' ∧ ∀ step ∈ rest, m.order.Allocated step.target)
    (fun step rest built m' ⟨n, hb, hrest⟩ => by
      have ht : m'.order.Allocated step.target := by
        rw [n.2.order]
        exact hrest step List.mem_cons_self
      exact (ends_buildStep n.1 hb ht).mono fun _ _ ⟨n', hb'⟩ =>
        ⟨n.trans n', hb', fun step hstep => hrest step (List.mem_cons_of_mem _ hstep)⟩)
    steps ∅ m ⟨.refl h, Body.held_empty m, ht⟩
  exact loop.mono fun built m' ⟨n, hb, _⟩ => ⟨n, hb⟩

omit h in
/-- The targets of what is read are variables. -/
theorem allocated_of_read {remap : Nat → Option Nat}
    (hr : ∀ v w, remap v = some w → m.order.Allocated w) (lines : List (Option (List Char))) :
    ∀ step ∈ (Body.read remap lines).steps, m.order.Allocated step.target := by
  intro step hstep
  obtain ⟨v, hv⟩ := Body.read_target step hstep
  exact hr v _ hv

/-- **Reading a text comes to an edge or to an error, on any text.** -/
theorem ends_readBody {remap : Nat → Option Nat}
    (hr : ∀ v w, remap v = some w → m.order.Allocated w) (lines : List (Option (List Char))) :
    Ends (readBody remap lines) m fun r m' => m.Next m' ∧ ∀ e, r = .ok e → m'.Holds e := by
  unfold readBody build
  refine (ends_buildSteps h (allocated_of_read hr lines)).bind fun built m' ⟨n, hb⟩ =>
    ends_pure ⟨n, fun e he => ?_⟩
  cases hroot : (Body.read remap lines).root with
  | error error => rw [hroot] at he; cases he
  | ok root =>
      rw [hroot] at he
      obtain rfl := Except.ok.inj he
      exact hb.decode n.1.toFounded root

end Rebuilding

end Manager

end Factbase.Diagram
