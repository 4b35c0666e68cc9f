import Factbase.Domain.Basic
import Factbase.Proofs.Outcome

/-!
# Indices stay

A domain numbers values as they come. Values are told apart by the equality of their type, which
need not be that of Lean: all that is asked of it is that it is an equivalence and that equal values
have equal hashes.

* `Numbering.Matched`: the two stores of a numbering answer each other, so that no value stands
  twice (`Numbering.Matched.pairwise`); `Numbering.Matched.add`: **adding keeps that**;
* `Domain.addAll`: the domain behind any calls that add values;
* `Domain.values_addAll`: **its values are those that were there and the first occurrences of the
  others**;
* `Domain.create_addAll`: **a domain is a dense bijection whose indices never move.**
-/

namespace Factbase

variable {α : Type} [BEq α] [Hashable α]

/-! ## 1. Numberings -/

namespace Numbering

/-- The index of a value is where an equal one stands. -/
def Matched (n : Numbering α) : Prop :=
  ∀ v i, n.indexOf? v = some i ↔ ∃ w, n.get? i = some w ∧ (w == v) = true

theorem indexOf?_empty (v : α) : ({} : Numbering α).indexOf? v = none :=
  Std.HashMap.getElem?_empty

theorem matched_empty : ({} : Numbering α).Matched := by
  intro v i
  rw [indexOf?_empty, get?, Array.getElem?_empty]
  simp

variable {n : Numbering α} {v w : α} {i : Nat}

theorem get?_push : (n.push v).get? i = if i = n.size then some v else n.get? i :=
  Array.getElem?_push

theorem values_push (n : Numbering α) (v : α) :
    (n.push v).values.toList = n.values.toList ++ [v] :=
  Array.toList_push

theorem add_of_known (h : n.indexOf? v = some i) : n.add v = (i, n) := by
  rw [add, h]

theorem add_of_new (h : n.indexOf? v = none) : n.add v = (n.size, n.push v) := by
  rw [add, h]

/-- What stands at an index stays there. -/
theorem get?_add (h : n.get? i = some w) (v : α) : (n.add v).2.get? i = some w := by
  cases hv : n.indexOf? v with
  | some j => rw [add_of_known hv, h]
  | none =>
      have hlt : i < n.size := (Array.getElem?_eq_some_iff.mp h).1
      rw [add_of_new hv, get?_push, if_neg (Nat.ne_of_lt hlt), h]

section Equality

variable [EquivBEq α] [LawfulHashable α]

theorem indexOf?_push :
    (n.push v).indexOf? w = if (v == w) = true then some n.size else n.indexOf? w :=
  Std.HashMap.getElem?_insert

/-- **A new value gets an index of its own.** -/
theorem Matched.push (h : n.Matched) (hnew : n.indexOf? v = none) : (n.push v).Matched := by
  intro w i
  rw [indexOf?_push, get?_push]
  by_cases hw : (v == w) = true
  · rw [if_pos hw]
    by_cases hi : i = n.size
    · rw [if_pos hi, hi]
      exact iff_of_true rfl ⟨v, rfl, hw⟩
    · rw [if_neg hi]
      refine iff_of_false (fun heq => hi (Option.some.inj heq).symm) ?_
      -- an equal value that stands somewhere would have been found
      rintro ⟨u, hu, huw⟩
      rw [(h v i).mpr ⟨u, hu, PartialEquivBEq.trans huw (PartialEquivBEq.symm hw)⟩] at hnew
      cases hnew
  · rw [if_neg hw, h w i]
    by_cases hi : i = n.size
    · have hbeyond : n.get? i = none := Array.getElem?_eq_none (Nat.le_of_eq hi.symm)
      rw [if_pos hi, hbeyond]
      refine iff_of_false (fun ⟨_, hu, _⟩ => (by cases hu)) ?_
      rintro ⟨u, hu, huw⟩
      exact hw (Option.some.inj hu ▸ huw)
    · rw [if_neg hi]

theorem Matched.add (h : n.Matched) (v : α) : (n.add v).2.Matched := by
  cases hv : n.indexOf? v with
  | some i => rwa [add_of_known hv]
  | none =>
      rw [add_of_new hv]
      exact h.push hv

/-- One more value is known, and those that are equal to it. -/
theorem isSome_indexOf?_add (n : Numbering α) (v w : α) :
    ((n.add v).2.indexOf? w).isSome = ((n.indexOf? w).isSome || v == w) := by
  cases hv : n.indexOf? v with
  | some i =>
      rw [add_of_known hv]
      by_cases hw : (v == w) = true
      · have hsame : n.indexOf? v = n.indexOf? w := Std.HashMap.getElem?_congr hw
        rw [← hsame, hv, hw]
        rfl
      · rw [Bool.eq_false_iff.mpr hw, Bool.or_false]
  | none =>
      rw [add_of_new hv, indexOf?_push]
      cases v == w <;> simp

end Equality

/-- **No value stands twice.** -/
theorem Matched.pairwise [EquivBEq α] (h : n.Matched) :
    n.values.toList.Pairwise fun v w => (v == w) = false := by
  have hstands : ∀ k (hk : k < n.values.toList.length), n.get? k = some n.values.toList[k] :=
    fun k hk => by rw [get?, ← Array.getElem?_toList, List.getElem?_eq_getElem hk]
  refine List.pairwise_iff_getElem.mpr fun i j hi hj hlt => Bool.eq_false_iff.mpr fun hsame => ?_
  have hfirst := (h n.values.toList[j] i).mpr ⟨_, hstands i hi, hsame⟩
  have hsecond := (h n.values.toList[j] j).mpr ⟨_, hstands j hj, BEq.rfl⟩
  exact Nat.ne_of_lt hlt (Option.some.inj (hfirst.symm.trans hsecond))

end Numbering

/-! ## 2. Domains -/

namespace Domain

/-- The domain behind calls that add values. -/
def addAll (d : Domain α) (vs : List α) : Domain α := vs.foldl (fun d v => (d.add v).2) d

variable {d : Domain α} {vs : List α} {v : α} {i : Nat}

theorem addAll_cons (d : Domain α) (v : α) (vs : List α) :
    d.addAll (v :: vs) = (d.add v).2.addAll vs := rfl

theorem get_eq_ok_iff : d.get i = .ok v ↔ d.get? i = some v := by
  rw [get]
  cases d.get? i with
  | some w =>
      exact ⟨fun h => congrArg some (Except.ok.inj h), fun h => congrArg _ (Option.some.inj h)⟩
  | none => exact ⟨fun h => (by cases h), fun h => (by cases h)⟩

theorem add_of_known (h : d.indexOf? v = some i) : d.add v = (i, d) := by
  have hadd : d.numbering.add v = (i, d.numbering) := Numbering.add_of_known h
  rw [add, hadd]

theorem add_of_new (h : d.indexOf? v = none) :
    d.add v = (d.size, ⟨d.name, d.canon, d.numbering.push v⟩) := by
  have hadd : d.numbering.add v = (d.size, d.numbering.push v) := Numbering.add_of_new h
  rw [add, hadd]

/-- **What stands at an index stays there**, whatever is added. -/
theorem get_addAll (h : d.get i = .ok v) (more : List α) : (d.addAll more).get i = .ok v := by
  induction more generalizing d with
  | nil => exact h
  | cons w more ih =>
      refine ih (get_eq_ok_iff.mpr ?_)
      exact Numbering.get?_add (get_eq_ok_iff.mp h) w

section Equality

variable [EquivBEq α] [LawfulHashable α]

theorem matched_addAll (h : d.numbering.Matched) (vs : List α) :
    (d.addAll vs).numbering.Matched := by
  induction vs generalizing d with
  | nil => exact h
  | cons v vs ih => exact ih (h.add v)

/-- The values that are known are those that were, and those that were added. -/
theorem isSome_indexOf?_addAll (d : Domain α) (vs : List α) (w : α) :
    ((d.addAll vs).indexOf? w).isSome = ((d.indexOf? w).isSome || vs.any (· == w)) := by
  induction vs generalizing d with
  | nil => rw [addAll, List.foldl_nil, List.any_nil, Bool.or_false]
  | cons v vs ih =>
      rw [addAll_cons, ih, List.any_cons, ← Bool.or_assoc]
      exact congrArg (· || vs.any (· == w)) (d.numbering.isSome_indexOf?_add v w)

/-- **The values are those that were there and, behind them, the first occurrences of those that
were not.** -/
theorem values_addAll (d : Domain α) (vs : List α) : (d.addAll vs).values =
    d.values ++ (vs.filter fun v => (d.indexOf? v).isNone).eraseDups := by
  induction vs generalizing d with
  | nil => exact (List.append_nil _).symm
  | cons v vs ih =>
      rw [addAll_cons, ih]
      cases hv : d.indexOf? v with
      | some i =>
          rw [add_of_known hv, List.filter_cons_of_neg (by rw [hv]; exact Bool.false_ne_true)]
      | none =>
          have hknown : ∀ w, ((d.add v).2.indexOf? w).isNone =
              (!w == v && (d.indexOf? w).isNone) := fun w => by
            have hadd : ((d.add v).2.indexOf? w).isSome = _ := d.numbering.isSome_indexOf?_add v w
            rw [← Option.not_isSome, hadd, Bool.not_or, BEq.comm, Bool.and_comm, Option.not_isSome]
            rfl
          have hvalues : (d.add v).2.values = d.values ++ [v] := by
            rw [add_of_new hv]
            exact d.numbering.values_push v
          rw [hvalues, List.append_assoc, List.singleton_append,
            List.filter_cons_of_pos (by rw [hv]; rfl), List.eraseDups_cons, List.filter_filter]
          simp only [hknown]

end Equality

/-! ## 3. Main result -/

/-- The domain numbers values in the order in which they first occurred, and will go on so. -/
structure Numbers (d : Domain α) (vs : List α) : Prop where
  values : d.values = vs.eraseDups
  distinct : d.values.Pairwise fun v w => (v == w) = false
  /-- The indices are those below the size, and there are as many values. -/
  dense : d.values.length = d.size ∧ ∀ i, (∃ v, d.get i = .ok v) ↔ i < d.size
  /-- The index of a value is where it stands. -/
  index : ∀ v i, d.indexOf? v = some i ↔ ∃ w, d.get i = .ok w ∧ (w == v) = true
  /-- A value that did not occur gets the next index. -/
  new : ∀ v, (∀ w ∈ vs, (w == v) = false) →
    (d.add v).1 = d.size ∧ (d.add v).2.values = d.values ++ [v]
  /-- A value that occurred keeps its index, and all else is kept as well. -/
  known : ∀ v, (∃ w ∈ vs, (w == v) = true) → ∃ i, d.indexOf? v = some i ∧ d.add v = (i, d)
  /-- No index changes its value, whatever is added. -/
  stable : ∀ more i v, d.get i = .ok v → (d.addAll more).get i = .ok v

/-- **A domain is a dense bijection whose indices never move**, after any calls that add values,
repeated ones among them. -/
theorem create_addAll [EquivBEq α] [LawfulHashable α] {name : String} {canon : α → String}
    {empty : Domain α} (h : create name canon = .ok empty) (vs : List α) :
    (empty.addAll vs).Numbers vs := by
  obtain rfl : empty = ⟨name, canon, {}⟩ := by
    rw [create] at h
    split at h
    · cases h
    · exact (Except.ok.inj h).symm
  have hmatched := matched_addAll (d := ⟨name, canon, {}⟩) Numbering.matched_empty vs
  have hknown := isSome_indexOf?_addAll ⟨name, canon, {}⟩ vs
  have hvalues := values_addAll ⟨name, canon, {}⟩ vs
  have hnone : ∀ v, (⟨name, canon, {}⟩ : Domain α).indexOf? v = none := Numbering.indexOf?_empty
  simp only [hnone, Option.isSome_none, Bool.false_or] at hknown
  simp only [hnone, Option.isNone_none, List.filter_true] at hvalues
  generalize (⟨name, canon, {}⟩ : Domain α).addAll vs = d at hmatched hknown hvalues ⊢
  refine ⟨hvalues, hmatched.pairwise, ⟨Array.length_toList, fun i => ?_⟩, fun v i => ?_,
    fun v hv => ?_, fun v hv => ?_, fun more i v hv => get_addAll hv more⟩
  · simp only [get_eq_ok_iff]
    rw [← Option.isSome_iff_exists, get?, Numbering.get?, isSome_getElem?]
    rfl
  · simp only [get_eq_ok_iff]
    exact hmatched v i
  · have hnew : d.indexOf? v = none := by
      rw [← Option.not_isSome_iff_eq_none, hknown, List.any_eq_true]
      rintro ⟨w, hw, hsame⟩
      rw [hv w hw] at hsame
      cases hsame
    rw [add_of_new hnew]
    exact ⟨rfl, d.numbering.values_push v⟩
  · have hsome := hknown v
    rw [List.any_eq_true.mpr hv] at hsome
    obtain ⟨i, hi⟩ := Option.isSome_iff_exists.mp hsome
    exact ⟨i, hi, add_of_known hi⟩

/-- A value that is added again has its old index, and the next new one the next. -/
theorem create_addAll_repeated : ∃ d : Domain String, create "M" id = .ok d ∧
    (d.addAll ["init", "main", "init", "helper"]).values = ["init", "main", "helper"] ∧
    (∃ i, (d.addAll ["init", "main", "init", "helper"]).add "main" =
      (i, d.addAll ["init", "main", "init", "helper"])) ∧
    ((d.addAll ["init", "main", "init", "helper"]).add "absent").1 =
      (d.addAll ["init", "main", "init", "helper"]).size := by
  have hcreate : create (α := String) "M" id = .ok ⟨"M", id, {}⟩ := rfl
  have h := create_addAll hcreate ["init", "main", "init", "helper"]
  obtain ⟨i, _, hadd⟩ := h.known "main" (by decide)
  exact ⟨_, hcreate, h.values, ⟨i, hadd⟩, (h.new "absent" (by decide)).1⟩

end Domain

end Factbase
