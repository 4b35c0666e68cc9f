import Factbase.Diagram.Order
import Factbase.Proofs.Outcome
import Mathlib.Data.List.Perm.Subperm

/-!
# Levels of variables

An order is sound where its two directions are inverse to each other (`Order.Sound`): the
variables `1, …, n` and the levels `0, …, n - 1` are in one-to-one correspondence.

* `Order.Allocated o v`: `v` is one of the variables; `Order.levelAt o v` is its level;
* `Sound.levelOf_eq_ok_iff`: what is asked for in one direction is answered in the other;
* `sound_empty`, `Sound.extend`, `sound_ofList`: **every order that the operations make is
  sound**, and fresh variables leave the levels of the others alone;
* `exists_ofList`: every arrangement of the variables is accepted.
-/

namespace Factbase.Diagram.Order

/-- `v` is a variable of the order. -/
def Allocated (o : Order) (v : Nat) : Prop := v ≠ 0 ∧ v ≤ o.size

/-- The level of a variable; what is no variable stands below all levels. -/
def levelAt (o : Order) (v : Nat) : Nat := (o.level? v).getD o.size

/-- Variables and levels are inverse to each other. -/
structure Sound (o : Order) : Prop where
  sizes : o.levels.size = o.vars.size
  level : ∀ v, o.Allocated v → ∃ l, o.level? v = some l ∧ o.var? l = some v
  var : ∀ l, l < o.size → ∃ v, o.Allocated v ∧ o.var? l = some v ∧ o.level? v = some l

/-! ## 1. Reading a sound order -/

/-- A placed variable stands where it was placed. -/
theorem level?_placed {o : Order} {v l : Nat} (h : o.levels[v - 1]? = some l) :
    o.level? v = some l := by
  rw [level?, h]

theorem var?_placed {o : Order} {v l : Nat} (h : o.vars[l]? = some v) : o.var? l = some v := by
  rw [var?, h]

/-- Behind the placed variables each one stands at the level before its number. -/
theorem level?_fresh {o : Order} {l : Nat} (hfresh : o.levels.size ≤ l) (hl : l < o.size) :
    o.level? (l + 1) = some l := by
  rw [level?, Nat.add_sub_cancel, Array.getElem?_eq_none hfresh]
  exact if_pos hl

theorem var?_fresh {o : Order} {l : Nat} (hfresh : o.vars.size ≤ l) (hl : l < o.size) :
    o.var? l = some (l + 1) := by
  rw [var?, Array.getElem?_eq_none hfresh]
  exact if_pos hl

theorem lt_size_of_var? {o : Order} {v l : Nat} (h : o.var? l = some v) : l < o.size := by
  unfold var? at h
  split at h
  · rename_i hvar
    exact Nat.lt_add_right _ (Array.getElem?_eq_some_iff.mp hvar).1
  · split at h
    · assumption
    · cases h

theorem lt_size_of_varAt {o : Order} {v l : Nat} (h : o.varAt l = .ok v) : l < o.size := by
  unfold varAt at h
  split at h
  · rename_i hvar
    exact lt_size_of_var? hvar
  · cases h

section Reading

variable {o : Order} (h : o.Sound) {v w l : Nat}

include h

theorem Sound.level?_eq (hv : o.Allocated v) : o.level? v = some (o.levelAt v) := by
  obtain ⟨l, hl, _⟩ := h.level v hv
  rw [levelAt, hl, Option.getD_some]

theorem Sound.var?_levelAt (hv : o.Allocated v) : o.var? (o.levelAt v) = some v := by
  obtain ⟨l, hl, hvar⟩ := h.level v hv
  rw [levelAt, hl, Option.getD_some, hvar]

theorem Sound.levelAt_lt (hv : o.Allocated v) : o.levelAt v < o.size :=
  lt_size_of_var? (h.var?_levelAt hv)

theorem Sound.levelOf_eq (hv : o.Allocated v) : o.levelOf v = .ok (o.levelAt v) := by
  rw [levelOf, if_neg hv.1, h.level?_eq hv]

/-- Different variables stand at different levels. -/
theorem Sound.levelAt_inj (hv : o.Allocated v) (hw : o.Allocated w)
    (e : o.levelAt v = o.levelAt w) : v = w := by
  have hvar := h.var?_levelAt hv
  rw [e, h.var?_levelAt hw] at hvar
  exact (Option.some.inj hvar).symm

/-- Every level has a variable. -/
theorem Sound.exists_levelAt (hl : l < o.size) :
    ∃ v, o.Allocated v ∧ o.levelAt v = l ∧ o.varAt l = .ok v := by
  obtain ⟨v, hv, hvar, hlevel⟩ := h.var l hl
  refine ⟨v, hv, ?_, ?_⟩
  · rw [levelAt, hlevel, Option.getD_some]
  · rw [varAt, hvar]

theorem Sound.allocated_of_level? (hv : v ≠ 0) (hlevel : o.level? v = some l) :
    o.Allocated v := by
  refine ⟨hv, ?_⟩
  unfold level? at hlevel
  split at hlevel
  · rename_i hplaced
    obtain ⟨hlt, _⟩ := Array.getElem?_eq_some_iff.mp hplaced
    rw [h.sizes] at hlt
    exact Nat.le_add_right_of_le (Nat.le_of_pred_lt hlt)
  · split at hlevel
    · assumption
    · cases hlevel

theorem Sound.allocated_of_levelOf (hlevel : o.levelOf v = .ok l) : o.Allocated v := by
  unfold levelOf at hlevel
  split at hlevel
  · cases hlevel
  · rename_i hv
    split at hlevel
    · rename_i hlevel'
      exact h.allocated_of_level? hv hlevel'
    · cases hlevel

theorem Sound.lt_size_of_levelOf (hlevel : o.levelOf v = .ok l) : l < o.size := by
  have hv := h.allocated_of_levelOf hlevel
  obtain rfl := Except.ok.inj ((h.levelOf_eq hv).symm.trans hlevel)
  exact h.levelAt_lt hv

/-- **Levels and variables answer each other.** -/
theorem Sound.levelOf_eq_ok_iff : o.levelOf v = .ok l ↔ o.varAt l = .ok v := by
  constructor
  · intro hlevel
    have hv := h.allocated_of_levelOf hlevel
    obtain rfl := Except.ok.inj ((h.levelOf_eq hv).symm.trans hlevel)
    rw [varAt, h.var?_levelAt hv]
  · intro hvar
    have hl : l < o.size := lt_size_of_varAt hvar
    obtain ⟨w, hw, rfl, hwvar⟩ := h.exists_levelAt hl
    obtain rfl := Except.ok.inj (hwvar.symm.trans hvar)
    exact h.levelOf_eq hw

end Reading

/-! ## 2. Fresh variables -/

theorem sound_empty : empty.Sound where
  sizes := rfl
  level _ hv := absurd (Nat.le_zero.mp hv.2) hv.1
  var _ hl := absurd hl (Nat.not_lt_zero _)

@[simp] theorem size_extend (o : Order) (count : Nat) : (o.extend count).size = o.size + count :=
  (Nat.add_assoc ..).symm

theorem level?_extend {o : Order} {v l : Nat} (h : o.level? v = some l) (count : Nat) :
    (o.extend count).level? v = some l := by
  cases hplaced : o.levels[v - 1]? with
  | some level =>
      obtain rfl := Option.some.inj ((level?_placed hplaced).symm.trans h)
      exact level?_placed hplaced
  | none =>
      have hfresh : (o.extend count).levels[v - 1]? = none := hplaced
      rw [level?, hplaced] at h
      rw [level?, hfresh]
      by_cases hle : v ≤ o.size
      · exact (if_pos (by rw [size_extend]; exact Nat.le_add_right_of_le hle)).trans
          ((if_pos hle).symm.trans h)
      · cases (if_neg hle).symm.trans h

theorem var?_extend {o : Order} {v l : Nat} (h : o.var? l = some v) (count : Nat) :
    (o.extend count).var? l = some v := by
  cases hplaced : o.vars[l]? with
  | some w =>
      obtain rfl := Option.some.inj ((var?_placed hplaced).symm.trans h)
      exact var?_placed hplaced
  | none =>
      have hfresh : (o.extend count).vars[l]? = none := hplaced
      rw [var?, hplaced] at h
      rw [var?, hfresh]
      by_cases hlt : l < o.size
      · exact (if_pos (by rw [size_extend]; exact Nat.lt_add_right _ hlt)).trans
          ((if_pos hlt).symm.trans h)
      · cases (if_neg hlt).symm.trans h

theorem Allocated.extend {o : Order} {v : Nat} (hv : o.Allocated v) (count : Nat) :
    (o.extend count).Allocated v :=
  ⟨hv.1, by rw [size_extend]; exact Nat.le_add_right_of_le hv.2⟩

theorem Sound.extend {o : Order} (h : o.Sound) (count : Nat) : (o.extend count).Sound := by
  refine ⟨h.sizes, fun v hv => ?_, fun l hl => ?_⟩
  · by_cases hold : v ≤ o.size
    · obtain ⟨l, hlevel, hvar⟩ := h.level v ⟨hv.1, hold⟩
      exact ⟨l, level?_extend hlevel count, var?_extend hvar count⟩
    · obtain ⟨l, rfl⟩ := Nat.exists_eq_succ_of_ne_zero hv.1
      have hplaced : o.vars.size ≤ l := by
        have := Nat.le_add_right o.vars.size o.fresh
        unfold size at hold
        omega
      exact ⟨l, level?_fresh (Nat.le_trans (Nat.le_of_eq h.sizes) hplaced) hv.2,
        var?_fresh hplaced hv.2⟩
  · by_cases hold : l < o.size
    · obtain ⟨v, hv, hvar, hlevel⟩ := h.var l hold
      exact ⟨v, hv.extend count, var?_extend hvar count, level?_extend hlevel count⟩
    · have hplaced : o.vars.size ≤ l :=
        Nat.le_trans (Nat.le_add_right _ o.fresh) (Nat.le_of_not_lt hold)
      exact ⟨l + 1, ⟨Nat.succ_ne_zero l, hl⟩, var?_fresh hplaced hl,
        level?_fresh (Nat.le_trans (Nat.le_of_eq h.sizes) hplaced) hl⟩

/-- **Fresh variables leave the levels of the others alone.** -/
theorem Sound.levelAt_extend {o : Order} (h : o.Sound) {v : Nat} (hv : o.Allocated v)
    (count : Nat) : (o.extend count).levelAt v = o.levelAt v := by
  rw [levelAt, level?_extend (h.level?_eq hv) count, Option.getD_some]

/-! ## 3. Given orders -/

/-- A variable that is placed is one that was not placed before. -/
theorem of_place_cons {v : Nat} {vs : List Nat} {level : Nat} {levels placed : Array (Option Nat)}
    (h : place (v :: vs) level levels = .ok placed) : v ≠ 0 ∧ v ≤ levels.size ∧
      levels[v - 1]? = some none ∧
      place vs (level + 1) (levels.setIfInBounds (v - 1) (some level)) = .ok placed := by
  unfold place at h
  split at h
  · cases h
  · rename_i hrange
    split at h
    · cases h
    · rename_i hfree
      refine ⟨by omega, by omega, ?_, h⟩
      rw [Array.getElem?_eq_getElem (show v - 1 < levels.size by omega)] at hfree ⊢
      cases e : levels[v - 1] with
      | none => rfl
      | some l => rw [e] at hfree; exact absurd rfl hfree

/-- What placing a list of variables comes to: they are new and different, they get the levels
from `level` on, and what was placed before stays. -/
structure Places (vs : List Nat) (level : Nat) (levels placed : Array (Option Nat)) : Prop where
  size : placed.size = levels.size
  nodup : vs.Nodup
  new : ∀ v ∈ vs, v ≠ 0 ∧ v ≤ levels.size ∧ levels[v - 1]? = some none
  given : ∀ (k v : Nat), vs[k]? = some v → placed[v - 1]? = some (some (level + k))
  kept : ∀ (i l : Nat), levels[i]? = some (some l) → placed[i]? = some (some l)

theorem Places.cons {v : Nat} {vs : List Nat} {level : Nat} {levels placed : Array (Option Nat)}
    (hv : v ≠ 0) (hle : v ≤ levels.size) (hnone : levels[v - 1]? = some none)
    (h : Places vs (level + 1) (levels.setIfInBounds (v - 1) (some level)) placed) :
    Places (v :: vs) level levels placed := by
  obtain ⟨hsize, hnodup, hnew, hgiven, hkept⟩ := h
  rw [Array.size_setIfInBounds] at hsize hnew
  have hself : (levels.setIfInBounds (v - 1) (some level))[v - 1]? = some (some level) :=
    Array.getElem?_setIfInBounds_self_of_lt (by omega)
  have hnotin : v ∉ vs := fun hmem => by
    have hfree := (hnew v hmem).2.2
    rw [hself] at hfree
    cases hfree
  refine ⟨hsize, List.nodup_cons.mpr ⟨hnotin, hnodup⟩, fun w hw => ?_, fun k w hw => ?_,
    fun i l hl => ?_⟩
  · rcases List.mem_cons.mp hw with rfl | hw
    · exact ⟨hv, hle, hnone⟩
    · obtain ⟨hw0, hwle, hwnone⟩ := hnew w hw
      have hne : v - 1 ≠ w - 1 := fun e => hnotin (by rwa [show v = w by omega])
      rw [Array.getElem?_setIfInBounds_ne hne] at hwnone
      exact ⟨hw0, hwle, hwnone⟩
  · cases k with
    | zero =>
        obtain rfl := Option.some.inj hw
        exact hkept _ _ hself
    | succ k =>
        have hplaced := hgiven k w hw
        rwa [show level + 1 + k = level + (k + 1) by omega] at hplaced
  · have hne : v - 1 ≠ i := fun e => by
      rw [← e, hnone] at hl
      cases hl
    exact hkept i l (by rw [Array.getElem?_setIfInBounds_ne hne, hl])

theorem places_of_place {vs : List Nat} : ∀ {level : Nat} {levels placed : Array (Option Nat)},
    place vs level levels = .ok placed → Places vs level levels placed := by
  induction vs with
  | nil =>
      intro level levels placed h
      obtain rfl := Except.ok.inj h
      exact ⟨rfl, List.nodup_nil, fun _ hv => absurd hv List.not_mem_nil,
        fun _ _ hv => (by cases hv), fun _ _ hl => hl⟩
  | cons v vs ih =>
      intro level levels placed h
      obtain ⟨hv, hle, hnone, hrest⟩ := of_place_cons h
      exact (ih hrest).cons hv hle hnone

/-- **An order that is accepted lists all variables once, is sound, and places them as listed.** -/
theorem sound_ofList {count : Nat} {vs : List Nat} {o : Order} (h : ofList count vs = .ok o) :
    o.Sound ∧ o.size = count ∧ (∀ l, o.var? l = vs[l]?) ∧ vs.Perm (List.range' 1 count) := by
  unfold ofList at h
  split at h
  · cases h
  · rename_i hlen
    rw [ne_eq, not_not] at hlen
    cases hp : place vs 0 (Array.replicate count none) with
    | error fault => rw [hp] at h; cases h
    | ok levels =>
        rw [hp] at h
        obtain rfl := Except.ok.inj h
        obtain ⟨hsize, hnodup, hrange, hlevels, _⟩ := places_of_place hp
        rw [Array.size_replicate] at hsize
        have hsub : vs ⊆ List.range' 1 count := fun v hv => by
          obtain ⟨hv0, hvle, _⟩ := hrange v hv
          rw [Array.size_replicate] at hvle
          exact List.mem_range'_1.mpr ⟨by omega, by omega⟩
        have hperm : vs.Perm (List.range' 1 count) :=
          (List.subperm_of_subset hnodup hsub).perm_of_length_le (by simp [hlen])
        have hplaced : ∀ l v, vs[l]? = some v → (levels.map (·.getD 0))[v - 1]? = some l :=
          fun l v hv => by
            rw [Array.getElem?_map, hlevels l v hv]
            simp
        have hcount : (⟨levels.map (·.getD 0), vs.toArray, 0⟩ : Order).size = count := by
          simp [size, hlen]
        have hvars : ∀ l, (⟨levels.map (·.getD 0), vs.toArray, 0⟩ : Order).var? l = vs[l]? :=
          fun l => by
            cases hv : vs[l]? with
            | some v => exact var?_placed (by simpa using hv)
            | none =>
                have hbeyond : ¬ l < count := by
                  rw [← hlen]
                  exact Nat.not_lt.mpr (List.getElem?_eq_none_iff.mp hv)
                rw [var?, List.getElem?_toArray, hv, hcount]
                exact if_neg hbeyond
        refine ⟨⟨?_, fun v hv => ?_, fun l hl => ?_⟩, hcount, hvars, hperm⟩
        · show (levels.map (·.getD 0)).size = vs.toArray.size
          simp [hsize, hlen]
        · have hle : v ≤ count := hcount ▸ hv.2
          have hmem : v ∈ vs := hperm.mem_iff.mpr (List.mem_range'_1.mpr
            ⟨Nat.one_le_iff_ne_zero.mpr hv.1, by omega⟩)
          obtain ⟨l, hl⟩ := List.getElem?_of_mem hmem
          exact ⟨l, level?_placed (hplaced l v hl), (hvars l).trans hl⟩
        · have hlt : l < vs.length := by rwa [hcount, ← hlen] at hl
          have hv := List.getElem?_eq_getElem hlt
          obtain ⟨hv0, hvle, _⟩ := hrange vs[l] (List.getElem_mem hlt)
          refine ⟨vs[l], ⟨hv0, ?_⟩, (hvars l).trans hv, level?_placed (hplaced l _ hv)⟩
          rwa [Array.size_replicate, ← hcount] at hvle

/-- Different variables that have no level yet are placed. -/
theorem exists_place : ∀ {vs : List Nat} (level : Nat) {levels : Array (Option Nat)}, vs.Nodup →
    (∀ v ∈ vs, v ≠ 0 ∧ v ≤ levels.size ∧ levels[v - 1]? = some none) →
    ∃ placed, place vs level levels = .ok placed
  | [], _, levels, _, _ => ⟨levels, rfl⟩
  | v :: vs, level, levels, hnodup, hnew => by
      obtain ⟨hv, hle, hnone⟩ := hnew v List.mem_cons_self
      obtain ⟨hnotin, hnodup⟩ := List.nodup_cons.mp hnodup
      have hrest : ∀ w ∈ vs, w ≠ 0 ∧ w ≤ (levels.setIfInBounds (v - 1) (some level)).size ∧
          (levels.setIfInBounds (v - 1) (some level))[w - 1]? = some none := fun w hw => by
        obtain ⟨hw0, hwle, hwnone⟩ := hnew w (List.mem_cons_of_mem _ hw)
        have hne : v - 1 ≠ w - 1 := fun e => hnotin (by rwa [show v = w by omega])
        rw [Array.size_setIfInBounds, Array.getElem?_setIfInBounds_ne hne]
        exact ⟨hw0, hwle, hwnone⟩
      obtain ⟨placed, hplaced⟩ := exists_place (level + 1) hnodup hrest
      refine ⟨placed, ?_⟩
      rw [place, if_neg (by omega), hnone]
      exact hplaced

/-- **Every arrangement of the variables is an order.** -/
theorem exists_ofList {count : Nat} {vs : List Nat} (h : vs.Perm (List.range' 1 count)) :
    ∃ o, ofList count vs = .ok o := by
  have hnew : ∀ v ∈ vs, v ≠ 0 ∧ v ≤ (Array.replicate count (none : Option Nat)).size ∧
      (Array.replicate count (none : Option Nat))[v - 1]? = some none := fun v hv => by
    have hrange := List.mem_range'_1.mp (h.mem_iff.mp hv)
    rw [Array.size_replicate, Array.getElem?_replicate, if_pos (by omega)]
    exact ⟨by omega, by omega, rfl⟩
  obtain ⟨levels, hlevels⟩ := exists_place 0 (h.nodup_iff.mpr List.nodup_range') hnew
  have hlen : vs.length = count := by rw [h.length_eq, List.length_range']
  exact ⟨_, unless_eq_ok (not_not.mpr hlen) (bind_eq_ok hlevels rfl)⟩

end Factbase.Diagram.Order
