import Factbase.Proofs.Relation.Opening
import Mathlib.Algebra.GroupWithZero.Nat

/-!
# Places of bits

The bits of a group are dealt step by step, and the slots of a group take part as long as they have
bits. Counted from below, the steps are those of the bits of narrower slots as well, so that the
place of a bit can be told from the widths alone.

* `Layout.upward`: the variables of a slot from the lowest level up;
* `Layout.place`: **the place of a bit in its group**, which lies behind the bits further up
  (`place_lt_of_lt`) and behind those of the same step in earlier slots (`place_lt_of_idxOf`);
* `getElem?_dealGroup`, `getElem?_arrange`: **the bits are arranged in these places**, in both
  directions, and the groups one behind another.
-/

namespace Factbase.Relation.Layout

open Diagram

variable (l : Layout)

/-! ## 1. Places -/

/-- The number of bits of some slots. -/
def bits (slots : List Nat) : Nat := (slots.map l.width).sum

/-- The place of a bit in its group, where `b` bits of its slot stand below it: behind all bits that
stand further up in their slots, and behind those that stand as high in earlier slots. -/
def place (group : List Nat) (slot b : Nat) : Nat :=
  (group.map fun slot => l.width slot - (b + 1)).sum +
    (group.take (group.idxOf slot)).countP (b < l.width ·)

theorem bits_append (slots slots' : List Nat) :
    l.bits (slots ++ slots') = l.bits slots + l.bits slots' := by
  rw [bits, List.map_append, List.sum_append]
  rfl

/-- The bits further up and those as high are the bits from there on. -/
theorem sum_add_countP (group : List Nat) (b : Nat) :
    (group.map fun slot => l.width slot - (b + 1)).sum + group.countP (b < l.width ·) =
      (group.map fun slot => l.width slot - b).sum := by
  induction group with
  | nil => rfl
  | cons slot group ih =>
      rw [List.map_cons, List.map_cons, List.sum_cons, List.sum_cons, List.countP_cons, ← ih]
      by_cases h : b < l.width slot
      · rw [if_pos (decide_eq_true h)]
        omega
      · rw [if_neg (by rwa [decide_eq_true_iff])]
        omega

theorem sum_sub_le (group : List Nat) {b b' : Nat} (h : b' ≤ b) :
    (group.map fun slot => l.width slot - b).sum ≤
      (group.map fun slot => l.width slot - b').sum := by
  induction group with
  | nil => exact Nat.le_refl 0
  | cons slot group ih =>
      rw [List.map_cons, List.map_cons, List.sum_cons, List.sum_cons]
      omega

variable {l} {group : List Nat} {slot slot' b b' : Nat}

/-- The earlier slots are followed by the slot itself. -/
theorem countP_take_lt (hslot : slot ∈ group) (hb : b < l.width slot) {count : Nat}
    (hcount : group.idxOf slot < count) :
    (group.take (group.idxOf slot)).countP (b < l.width ·) <
      (group.take count).countP (b < l.width ·) := by
  have hlt := List.idxOf_lt_length_of_mem hslot
  have hnext : group.take (group.idxOf slot + 1) = group.take (group.idxOf slot) ++ [slot] := by
    rw [List.take_add_one, List.getElem?_idxOf hslot]
    rfl
  have hsub : List.Sublist (group.take (group.idxOf slot + 1)) (group.take count) :=
    (List.take_prefix_take_left hcount).sublist
  have hle := hsub.countP_le (p := (b < l.width ·))
  rw [hnext, List.countP_append, List.countP_singleton, if_pos (decide_eq_true hb)] at hle
  omega

/-- **Bits further up stand in front.** -/
theorem place_lt_of_lt (hslot : slot ∈ group) (hb : b < l.width slot) (hlt : b' < b) :
    l.place group slot b < l.place group slot' b' := by
  have hcount := countP_take_lt hslot hb (List.idxOf_lt_length_of_mem hslot)
  rw [List.take_length] at hcount
  have hfrom := l.sum_add_countP group b
  have hle := l.sum_sub_le group (show b' + 1 ≤ b from hlt)
  unfold place
  omega

/-- **Bits that stand as high are in the order of their slots.** -/
theorem place_lt_of_idxOf (hslot : slot ∈ group) (hb : b < l.width slot)
    (hlt : group.idxOf slot < group.idxOf slot') :
    l.place group slot b < l.place group slot' b :=
  Nat.add_lt_add_left (countP_take_lt hslot hb hlt) _

/-- **The places of a group fall with the number of bits below, and follow the slots where it is the
same.** -/
theorem place_lt_iff (hslot : slot ∈ group) (hb : b < l.width slot) (hslot' : slot' ∈ group)
    (hb' : b' < l.width slot') : l.place group slot b < l.place group slot' b' ↔
      b' < b ∨ b' = b ∧ group.idxOf slot < group.idxOf slot' := by
  constructor
  · intro hlt
    rcases Nat.lt_trichotomy b b' with hbelow | rfl | habove
    · exact absurd (place_lt_of_lt hslot' hb' hbelow) (Nat.lt_asymm hlt)
    · refine .inr ⟨rfl, Nat.lt_of_not_le fun hle => ?_⟩
      rcases Nat.lt_or_eq_of_le hle with hearlier | hsame
      · exact absurd (place_lt_of_idxOf hslot' hb' hearlier) (Nat.lt_asymm hlt)
      · obtain rfl := (List.idxOf_inj hslot').mp hsame
        exact Nat.lt_irrefl _ hlt
    · exact .inl habove
  · rintro (hlt | ⟨rfl, hlt⟩)
    · exact place_lt_of_lt hslot hb hlt
    · exact place_lt_of_idxOf hslot hb hlt

/-! ## 2. Dealing -/

/-- The variables of a slot from the lowest level up. -/
def upward (l : Layout) (reverse : Bool) (slot : Nat) : List Nat :=
  if reverse then l.vars slot else (l.vars slot).reverse

theorem length_upward (l : Layout) (reverse : Bool) (slot : Nat) :
    (l.upward reverse slot).length = l.width slot := by
  cases reverse
  · exact List.length_reverse
  · rfl

theorem mem_upward {reverse : Bool} {v : Nat} : v ∈ l.upward reverse slot ↔ v ∈ l.vars slot := by
  cases reverse
  · exact List.mem_reverse
  · exact Iff.rfl

/-- The variable of a slot that is dealt at a step. -/
def dealt (l : Layout) (reverse : Bool) (width step slot : Nat) : Option Nat :=
  if step < width - l.width slot then none
  else if reverse then (l.vars slot)[l.width slot - 1 - (step - (width - l.width slot))]?
  else (l.vars slot)[step - (width - l.width slot)]?

theorem dealStep_eq (reverse : Bool) (width step : Nat) (group : List Nat) :
    dealStep l.slots reverse width step group = group.filterMap (l.dealt reverse width step) := rfl

/-- What is dealt at the step in front of the last `b` has `b` variables of its slot below it. -/
theorem dealt_eq {reverse : Bool} {step : Nat} (h : l.width slot ≤ step + (b + 1)) :
    l.dealt reverse (step + (b + 1)) step slot = (l.upward reverse slot)[b]? := by
  unfold dealt
  by_cases hb : b < l.width slot
  · have hnow : step - (step + (b + 1) - l.width slot) = l.width slot - 1 - b := by omega
    rw [if_neg (by omega), hnow]
    cases reverse with
    | true =>
        rw [if_pos rfl, show l.width slot - 1 - (l.width slot - 1 - b) = b by omega]
        rfl
    | false =>
        rw [if_neg Bool.false_ne_true]
        exact (List.getElem?_reverse hb).symm
  · have hbeyond : (l.upward reverse slot)[b]? = none :=
      List.getElem?_eq_none ((l.length_upward reverse slot).trans_le (Nat.le_of_not_lt hb))
    rw [if_pos (by omega), hbeyond]

theorem isSome_dealt {reverse : Bool} {step : Nat} (h : l.width slot ≤ step + (b + 1)) :
    (l.dealt reverse (step + (b + 1)) step slot).isSome = decide (b < l.width slot) := by
  rw [dealt_eq h, Bool.eq_iff_iff, isSome_getElem?, decide_eq_true_iff, ← length_upward l reverse]

/-- In front of the last `b` steps a slot has dealt all of its variables but `b`. -/
theorem length_filterMap_dealt {reverse : Bool} : ∀ {steps b : Nat}, l.width slot ≤ steps + b →
    ((List.range steps).filterMap (l.dealt reverse (steps + b) · slot)).length = l.width slot - b
  | 0, b, h => (Nat.sub_eq_zero_of_le (by omega)).symm
  | step + 1, b, h => by
      have hshift : step + 1 + b = step + (b + 1) := by omega
      rw [hshift] at h ⊢
      rw [List.range_succ, List.filterMap_append, List.length_append, length_filterMap_dealt h,
        List.length_filterMap_eq_countP, List.countP_singleton, isSome_dealt h]
      by_cases hb : b < l.width slot
      · rw [if_pos (decide_eq_true hb)]
        omega
      · rw [if_neg (by rwa [decide_eq_true_iff])]
        omega

section Group

variable (reverse : Bool) {step : Nat} (hle : ∀ other ∈ group, l.width other ≤ step + (b + 1))

include hle

/-- In front of a step stand the bits further up. -/
theorem length_flatMap_dealStep : ((List.range step).flatMap fun k =>
    dealStep l.slots reverse (step + (b + 1)) k group).length =
      (group.map fun slot => l.width slot - (b + 1)).sum := by
  simp only [dealStep_eq]
  rw [(perm_flatMap_filterMap _ _ group).length_eq, List.length_flatMap]
  exact congrArg List.sum
    (List.map_congr_left fun other hother => length_filterMap_dealt (hle other hother))

/-- At a step a bit stands behind those of the earlier slots. -/
theorem exists_dealStep_eq (hslot : slot ∈ group) {v : Nat}
    (hv : (l.upward reverse slot)[b]? = some v) : ∃ front back,
      dealStep l.slots reverse (step + (b + 1)) step group = front ++ v :: back ∧
      front.length = (group.take (group.idxOf slot)).countP (b < l.width ·) := by
  have hnow : l.dealt reverse (step + (b + 1)) step slot = some v :=
    (dealt_eq (hle slot hslot)).trans hv
  refine ⟨(group.take (group.idxOf slot)).filterMap (l.dealt reverse (step + (b + 1)) step),
    (group.drop (group.idxOf slot + 1)).filterMap (l.dealt reverse (step + (b + 1)) step), ?_, ?_⟩
  · have hsplit := List.take_append_drop (group.idxOf slot) group
    rw [List.drop_eq_getElem_cons (List.idxOf_lt_length_of_mem hslot), List.getElem_idxOf] at hsplit
    rw [dealStep_eq, ← List.filterMap_cons_some hnow, ← List.filterMap_append, hsplit]
  · rw [List.length_filterMap_eq_countP]
    exact List.countP_congr fun other hother => by
      rw [isSome_dealt (hle other (List.mem_of_mem_take hother))]

end Group

/-- **A group has its bits in their places.** -/
theorem getElem?_dealGroup {reverse : Bool} (hslot : slot ∈ group) {v : Nat}
    (hv : (l.upward reverse slot)[b]? = some v) :
    (dealGroup l.slots reverse group)[l.place group slot b]? = some v := by
  have hb : b < l.width slot := by
    rw [← length_upward l reverse slot]
    exact (List.getElem?_eq_some_iff.mp hv).1
  have hle : ∀ other ∈ group, l.width other ≤
      (group.map fun slot => (l.slots[slot]?.getD []).length).foldl max 0 := fun other hother =>
    (le_foldl_max _ 0).2 _ (List.mem_map.mpr ⟨other, hother, rfl⟩)
  -- as many steps follow as bits stand below
  obtain ⟨step, hwidth⟩ : ∃ step, (group.map fun slot =>
      (l.slots[slot]?.getD []).length).foldl max 0 = step + (b + 1) :=
    ⟨_, (Nat.sub_add_cancel (Nat.lt_of_lt_of_le hb (hle slot hslot))).symm⟩
  rw [hwidth] at hle
  have hbefore := length_flatMap_dealStep reverse hle
  obtain ⟨front, back, hdeal, hfront⟩ := exists_dealStep_eq reverse hle hslot hv
  unfold dealGroup
  rw [hwidth]
  dsimp only
  rw [List.range_add, List.flatMap_append, List.range_succ_eq_map, List.map_cons,
    List.flatMap_cons, Nat.add_zero step, hdeal, List.append_assoc front, ← List.append_assoc]
  have hplace : l.place group slot b = _ := congrArg₂ (· + ·) hbefore.symm hfront.symm
  rw [hplace, ← List.length_append, List.getElem?_append_right (Nat.le_refl _), Nat.sub_self]
  rfl

theorem mem_dealGroup (reverse : Bool) {v : Nat} :
    v ∈ dealGroup l.slots reverse group ↔ ∃ slot ∈ group, v ∈ l.vars slot := by
  rw [(perm_dealGroup l.slots reverse group).mem_iff]
  exact List.mem_flatMap

/-- A group has as many levels as its slots have bits. -/
theorem length_dealGroup (l : Layout) (reverse : Bool) (group : List Nat) :
    (dealGroup l.slots reverse group).length = l.bits group := by
  rw [(perm_dealGroup l.slots reverse group).length_eq, List.length_flatMap]
  rfl

/-- **Groups stand one behind another.** -/
theorem getElem?_arrange (reverse : Bool) (above below : List (List Nat)) {v i : Nat}
    (hv : (dealGroup l.slots reverse group)[i]? = some v) :
    (arrange l.slots reverse (above ++ group :: below))[l.bits above.flatten + i]? = some v := by
  have hlt := (List.getElem?_eq_some_iff.mp hv).1
  have habove : (above.flatMap (dealGroup l.slots reverse)).length = l.bits above.flatten := by
    induction above with
    | nil => rfl
    | cons first above ih =>
        rw [List.flatMap_cons, List.length_append, length_dealGroup, ih, List.flatten_cons,
          bits_append]
  rw [arrange, List.flatMap_append, List.flatMap_cons, ← habove,
    List.getElem?_append_right (Nat.le_add_right _ _), Nat.add_sub_cancel_left,
    List.getElem?_append_left hlt, hv]

end Factbase.Relation.Layout
