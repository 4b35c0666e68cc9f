import Factbase.Proofs.Relation.Layouts
import Factbase.Relation.Basic
import Mathlib.Algebra.Group.Nat.Defs
import Mathlib.Data.Set.Insert

/-!
# Tuples and their bits

An assignment spells a number in the variables of a slot, the most significant bit first, and so a
tuple in the slots of a layout.

* `number`, `Layout.read`: what an assignment spells;
* `bitLiterals_all`: **the literals of an index are true where its bits are spelled**;
* `exists_read`: every tuple that fits is spelled by some assignment;
* `Layout.Sound.makes_cube`, `Layout.Sound.makes_tupleCube`: **the cube of a tuple is true exactly
  where the tuple is spelled**, also where that is only some of the slots;
* `Contents.tuples`: **the tuples of a relation**, those that are spelled where its diagram is true.
-/

namespace Factbase.Relation

open Diagram

/-- The number that an assignment spells, the most significant bit first. -/
def number (ρ : Assignment) (vars : List Nat) : Nat :=
  vars.foldl (fun n v => 2 * n + (ρ v).toNat) 0

/-- The tuple that an assignment spells. -/
def Layout.read (l : Layout) (ρ : Assignment) : List Nat := l.slots.map (number ρ)

/-- The tuple has a number for every slot, which fits its bits. -/
def Layout.Fits (l : Layout) (t : List Nat) : Prop :=
  List.Forall₂ (fun vars k => k < 2 ^ List.length vars) l.slots t

/-! ## 1. Numbers -/

/-- The leading bit of a number and the rest. -/
theorem mod_twoPow_succ (k i : Nat) :
    k % 2 ^ (i + 1) = (k.testBit i).toNat * 2 ^ i + k % 2 ^ i := by
  rw [Nat.mod_pow_succ, Nat.add_comm, Nat.toNat_testBit, Nat.mul_comm]

section Numbers

variable {ρ ρ' : Assignment} {vars : List Nat}

theorem foldl_number (n : Nat) : vars.foldl (fun n v => 2 * n + (ρ v).toNat) n =
    n * 2 ^ vars.length + number ρ vars := by
  unfold number
  induction vars generalizing n with
  | nil => simp
  | cons v vars ih =>
      rw [List.foldl_cons, List.foldl_cons, ih, ih (2 * 0 + _), List.length_cons, Nat.pow_succ]
      rw [Nat.mul_zero, Nat.zero_add, Nat.add_mul, Nat.mul_comm (2 ^ vars.length) 2,
        ← Nat.mul_assoc, Nat.mul_comm n 2]
      omega

/-- The first variable has the greatest weight. -/
theorem number_cons (v : Nat) :
    number ρ (v :: vars) = (ρ v).toNat * 2 ^ vars.length + number ρ vars := by
  rw [number, List.foldl_cons, foldl_number, Nat.mul_zero, Nat.zero_add]

theorem number_lt : number ρ vars < 2 ^ vars.length := by
  induction vars with
  | nil => exact Nat.one_pos
  | cons v vars ih =>
      rw [number_cons, List.length_cons, Nat.pow_succ]
      have hb := Nat.mul_le_mul_right (2 ^ vars.length) (Bool.toNat_le (ρ v))
      omega

theorem number_congr (same : ∀ v ∈ vars, ρ v = ρ' v) : number ρ vars = number ρ' vars := by
  induction vars with
  | nil => rfl
  | cons v vars ih =>
      rw [number_cons, number_cons, same v List.mem_cons_self,
        ih fun w hw => same w (List.mem_cons_of_mem _ hw)]

/-- Every number that fits is spelled, whatever the other variables are. -/
theorem exists_number (hnodup : vars.Nodup) {k : Nat} (hk : k < 2 ^ vars.length) :
    ∃ ρ', number ρ' vars = k ∧ ∀ v, v ∉ vars → ρ' v = ρ v := by
  induction vars generalizing k with
  | nil => exact ⟨ρ, by rw [List.length_nil] at hk; simp [number]; omega, fun _ _ => rfl⟩
  | cons v vars ih =>
      obtain ⟨hv, hnodup⟩ := List.nodup_cons.mp hnodup
      obtain ⟨ρ', hk', hoff⟩ := ih hnodup (Nat.mod_lt k (Nat.two_pow_pos _))
      refine ⟨Function.update ρ' v (k.testBit vars.length), ?_, fun w hw => ?_⟩
      · rw [number_cons, Function.update_self,
          number_congr fun w hw => Function.update_of_ne (ne_of_mem_of_not_mem hw hv) _ _, hk']
        rw [List.length_cons] at hk
        rw [← mod_twoPow_succ, Nat.mod_eq_of_lt hk]
      · rw [Function.update_of_ne (List.ne_of_not_mem_cons hw)]
        exact hoff w (List.not_mem_of_not_mem_cons hw)

/-! ## 2. Literals -/

theorem bitLiterals_cons (v k : Nat) : Layout.bitLiterals (v :: vars) k =
    (if k.testBit vars.length then (v : Int) else -(v : Int)) :: Layout.bitLiterals vars k := by
  unfold Layout.bitLiterals
  rw [List.mapIdx_cons, List.length_cons, Nat.add_sub_cancel, Nat.sub_zero]
  refine congrArg _ (congrArg (fun f => vars.mapIdx f) (funext fun i => funext fun w => ?_))
  rw [show vars.length - (i + 1) = vars.length - 1 - i by omega]

theorem bitLiterals_natAbs (k : Nat) : (Layout.bitLiterals vars k).map Int.natAbs = vars := by
  induction vars with
  | nil => rfl
  | cons v vars ih =>
      rw [bitLiterals_cons, List.map_cons, ih]
      split <;> simp

/-- **The literals of an index are true where its bits are spelled.** -/
theorem bitLiterals_all (h0 : ∀ v ∈ vars, v ≠ 0) (k : Nat) :
    (Layout.bitLiterals vars k).all (Manager.literalTrue ρ) = true ↔
      number ρ vars = k % 2 ^ vars.length := by
  induction vars with
  | nil => simp [Layout.bitLiterals, number, Nat.mod_one]
  | cons v vars ih =>
      have hv := h0 v List.mem_cons_self
      have hlt : number ρ vars < 2 ^ vars.length := number_lt
      have hmod := Nat.mod_lt k (Nat.two_pow_pos vars.length)
      rw [bitLiterals_cons, List.all_cons, Bool.and_eq_true,
        ih fun w hw => h0 w (List.mem_cons_of_mem _ hw), number_cons, List.length_cons,
        mod_twoPow_succ]
      have hliteral :
          Manager.literalTrue ρ (if k.testBit vars.length then (v : Int) else -(v : Int)) = true ↔
            ρ v = k.testBit vars.length := by
        unfold Manager.literalTrue
        cases k.testBit vars.length with
        | true =>
            rw [if_pos rfl, decide_eq_false (by omega), Int.natAbs_natCast]
            cases ρ v <;> decide
        | false =>
            rw [if_neg Bool.false_ne_true, decide_eq_true (by omega), Int.natAbs_neg,
              Int.natAbs_natCast]
            cases ρ v <;> decide
      rw [hliteral]
      cases ρ v <;> cases k.testBit vars.length <;> simp <;> omega

end Numbers

/-! ## 3. Tuples -/

/-- The literals of a tuple, slot by slot. -/
theorem tupleLiterals_eq {l : Layout} {t : List Nat} (hlen : l.slots.length = t.length) :
    (t.mapIdx fun slot index => l.literals slot index) =
      List.zipWith Layout.bitLiterals l.slots t := by
  refine List.ext_getElem (by simp [hlen]) fun i hi hi' => ?_
  rw [List.length_mapIdx] at hi
  rw [List.getElem_mapIdx, List.getElem_zipWith, Layout.literals, Layout.vars,
    List.getElem?_eq_getElem (by omega)]
  rfl

theorem tupleLiterals_natAbs : ∀ {slots : List (List Nat)} {t : List Nat},
    slots.length = t.length →
    (List.zipWith Layout.bitLiterals slots t).flatten.map Int.natAbs = slots.flatten
  | [], [], _ => rfl
  | vars :: slots, k :: t, h => by
      rw [List.zipWith_cons_cons, List.flatten_cons, List.map_append, bitLiterals_natAbs,
        tupleLiterals_natAbs (Nat.succ.inj h), List.flatten_cons]

theorem tupleLiterals_all {ρ : Assignment} {slots : List (List Nat)} {t : List Nat}
    (h0 : ∀ v ∈ slots.flatten, v ≠ 0)
    (fits : List.Forall₂ (fun vars k => k < 2 ^ List.length vars) slots t) :
    (List.zipWith Layout.bitLiterals slots t).flatten.all (Manager.literalTrue ρ) = true ↔
      slots.map (number ρ) = t := by
  induction fits with
  | nil => simp
  | cons hk _ ih =>
      rw [List.flatten_cons] at h0
      rw [List.zipWith_cons_cons, List.flatten_cons, List.all_append, Bool.and_eq_true,
        bitLiterals_all fun v hv => h0 v (List.mem_append_left _ hv), Nat.mod_eq_of_lt hk,
        ih fun v hv => h0 v (List.mem_append_right _ hv), List.map_cons, List.cons.injEq]

/-- Every tuple that fits disjoint slots is spelled. -/
theorem exists_map_number {slots : List (List Nat)} {t : List Nat} (hnodup : slots.flatten.Nodup)
    (fits : List.Forall₂ (fun vars k => k < 2 ^ List.length vars) slots t) (ρ : Assignment) :
    ∃ ρ', slots.map (number ρ') = t ∧ ∀ v, v ∉ slots.flatten → ρ' v = ρ v := by
  induction fits with
  | nil => exact ⟨ρ, rfl, fun _ _ => rfl⟩
  | @cons vars k slots t hk _ ih =>
      rw [List.flatten_cons] at hnodup
      obtain ⟨hvars, hslots, hdisjoint⟩ := List.nodup_append.mp hnodup
      obtain ⟨ρ₁, hread, hoff⟩ := ih hslots
      obtain ⟨ρ₂, hnumber, hoff'⟩ := exists_number (ρ := ρ₁) hvars hk
      refine ⟨ρ₂, ?_, fun v hv => ?_⟩
      · rw [List.map_cons, hnumber, ← hread]
        refine congrArg _ (List.map_congr_left fun ws hws => number_congr fun w hw => ?_)
        refine hoff' w fun hmem => ?_
        exact hdisjoint w hmem w (List.mem_flatten.mpr ⟨ws, hws, hw⟩) rfl
      · rw [List.flatten_cons, List.mem_append, not_or] at hv
        rw [hoff' v hv.1, hoff v hv.2]

namespace Layout

section Tuples

variable {l : Layout} {m : Manager} (hl : l.Sound m) {t : List Nat}

/-- What is spelled fits. -/
theorem fits_read (l : Layout) (ρ : Assignment) : l.Fits (l.read ρ) := by
  unfold Fits read
  induction l.slots with
  | nil => exact .nil
  | cons vars slots ih => exact .cons number_lt ih

include hl

/-- **Every tuple that fits is spelled by some assignment.** -/
theorem Sound.exists_read (ht : l.Fits t) : ∃ ρ, l.read ρ = t := by
  obtain ⟨ρ, hread, _⟩ := exists_map_number hl.nodup ht fun _ => false
  exact ⟨ρ, hread⟩

/-- Literals of the slots' variables are literals of different variables. -/
theorem Sound.cubic {literals : List Int}
    (hsub : (literals.map Int.natAbs).Sublist l.slots.flatten) : m.Cubic literals := by
  refine ⟨fun k hk => hl.mem_flatten.mp (hsub.subset (List.mem_map.mpr ⟨k, hk, rfl⟩)), ?_⟩
  exact List.pairwise_map.mp (hsub.nodup hl.nodup)

/-- **The cube of numbers is true exactly where blocks of variables spell them.** -/
theorem Sound.makes_cube (h : m.WellFormed) {blocks : List (List Nat)}
    (hsub : blocks.flatten.Sublist l.slots.flatten)
    (fits : List.Forall₂ (fun vars k => k < 2 ^ List.length vars) blocks t) :
    Manager.Makes (Manager.cube (List.zipWith bitLiterals blocks t).flatten) m fun ρ =>
      decide (blocks.map (number ρ) = t) := by
  refine (Manager.makes_cube h (hl.cubic ?_)).congr fun ρ => ?_
  · rwa [tupleLiterals_natAbs fits.length_eq]
  · rw [Bool.eq_iff_iff, decide_eq_true_iff]
    exact tupleLiterals_all (fun v hv => (hl.mem_flatten.mp (hsub.subset hv)).1) fits

/-- **The cube of a tuple is true exactly where the tuple is spelled.** -/
theorem Sound.makes_tupleCube (h : m.WellFormed) (ht : l.Fits t) :
    Manager.Makes (l.tupleCube t) m fun ρ => decide (l.read ρ = t) := by
  unfold tupleCube
  rw [tupleLiterals_eq ht.length_eq]
  exact hl.makes_cube h (List.Sublist.refl _) ht

end Tuples

end Layout

/-- **The tuples of a relation**: what is spelled where its diagram is true. -/
def Contents.tuples (c : Contents) : Set (List Nat) :=
  {t | ∃ ρ, c.layout.read ρ = t ∧ c.manager.eval ρ c.root = true}

end Factbase.Relation
