import Factbase.Proofs.Diagram.Sweeping
import Factbase.Proofs.Relation.Editing
import Factbase.Proofs.Relation.Spelling

/-!
# Counting tuples

An open relation counts the assignments of its variables that satisfy its diagram. Different
assignments spell different tuples.

* `Contents.Sound.spells`: **the tuples of a relation are those that its diagram stands for**;
* `isEmpty_eq`, `sizeExact_eq`, `size_eq`: **emptiness and the number of tuples**.
-/

namespace Factbase.Relation

open Diagram

/-! ## 1. Tuples -/

/-- The variables of all slots. -/
def Layout.variables (l : Layout) : Finset Nat := l.slots.flatten.toFinset

section Tuples

variable {schema : Schema} {c : Contents} (hc : c.Sound schema)

include hc

theorem Contents.Sound.card_variables : c.layout.variables.card = c.layout.slots.flatten.length :=
  List.toFinset_card_of_nodup hc.layout.nodup

/-- The diagram depends on the variables of the slots only. -/
theorem Contents.Sound.dependsOn : c.manager.DependsOn c.layout.variables c.root := fun _ _ agree =>
  hc.manager.eval_congr hc.root fun v hv _ =>
    agree v (List.mem_toFinset.mpr (hc.layout.mem_flatten.mpr hv))

/-- **The diagram stands for tuples of all slots**, which are those of the relation. -/
theorem Contents.Sound.spells : Spells c.manager c.layout.slots c.root where
  manager := hc.manager
  held := hc.root
  allocated _ hv := hc.layout.mem_flatten.mp hv
  narrow _ hvars := hc.layout.length_le hvars
  dependsOn := hc.dependsOn

/-- The diagram is false exactly where there are no tuples. -/
theorem Contents.Sound.root_eq_zero_iff : c.root = .zero ↔ c.tuples = ∅ := hc.spells.eq_zero_iff

end Tuples

/-! ## 2. Questions -/

section Questions

variable {r : Relation} {schema : Schema} {c : Contents} (hopen : r.stage = .opened schema c)
  (hc : c.Sound schema) {S : Finset (List Nat)} (hS : c.tuples = ↑S)

include hopen hc hS

theorem isEmpty_eq : isEmpty r = .ok (decide (S = ∅)) r := by
  obtain ⟨config, stage⟩ := r
  obtain rfl : stage = .opened schema c := hopen
  show EStateM.Result.ok (decide (c.root = .zero)) _ = _
  rw [decide_eq_decide.mpr (hc.root_eq_zero_iff.trans (by rw [hS, Finset.coe_eq_empty]))]

/-- The set of all variables has a node for each, and the leaf. -/
theorem sizeExact_eq : sizeExact r = .ok S.card r := by
  refine onManager_ask_eq hopen ?_
  obtain ⟨vs, hperm, hset⟩ := hc.layout.all
  rw [Manager.diagramSize_isVarSet hc.manager.toFounded hset (hset.holds hc.manager.toFounded)]
  show c.manager.satCount c.root (vs.length + 1 - 1) = _
  rw [Nat.add_sub_cancel, hperm.length_eq, ← hc.card_variables,
    Manager.satCount_eq hc.manager hc.root hc.dependsOn]
  exact congrArg _ (hc.spells.card_models hS)

theorem size_eq : size r = .ok (min S.card greatestWord) r := by
  show EStateM.bind sizeExact _ r = _
  rw [EStateM.bind, sizeExact_eq hopen hc hS]
  rfl

end Questions

end Factbase.Relation
