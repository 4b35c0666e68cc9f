import Factbase.Domain.File
import Factbase.Proofs.Numberings

/-!
# Domains are bijections

A domain answers the position of a value and the value at a position, from two stores that are
filled together.

* `Numbering.Lawful`, `Universe.Lawful`: both answers agree, so that no value stands twice
  (`Numbering.Lawful.nodup`);
* `Numbering.Lawful.push`, `Numbering.Lawful.add`: **a value that is added leaves them agreeing**;
* `Domain.lawful_create`, `Domain.lawful_load`: they agree in new domains and in loaded ones;
* `Catalog.Built`, `Catalog.Built.lawful`: **so they do in all domains in use.**
-/

namespace Factbase

/-! ## 1. Numberings -/

namespace Numbering

variable {α : Type} [BEq α] [Hashable α]

/-- The index of a value is where it stands. -/
def Lawful (n : Numbering α) : Prop := ∀ v i, n.indexOf? v = some i ↔ n.get? i = some v

theorem lawful_empty : Lawful ({} : Numbering α) := by
  intro v i
  rw [indexOf?, get?, Std.HashMap.getElem?_empty, Array.getElem?_empty]
  simp

/-- Where only one value is equal to another, this is where an equal one stands. -/
theorem lawful_iff_matched [LawfulBEq α] {n : Numbering α} : n.Lawful ↔ n.Matched := by
  simp only [Lawful, Matched, beq_iff_eq, exists_eq_right]

variable {n : Numbering α} (h : n.Lawful) {v : α}

include h

/-- The values that have an index are those that stand somewhere. -/
theorem Lawful.isSome_indexOf?_iff : (n.indexOf? v).isSome = true ↔ v ∈ n.values.toList := by
  rw [Option.isSome_iff_exists, List.mem_iff_getElem?]
  exact exists_congr fun i => (h v i).trans (by rw [Array.getElem?_toList]; rfl)

/-- **No value stands twice.** -/
theorem Lawful.nodup : n.values.toList.Nodup := by
  have hindex : ∀ k (hk : k < n.values.toList.length), n.indexOf? n.values.toList[k] = some k :=
    fun k hk => (h _ _).mpr (by rw [get?, ← Array.getElem?_toList, List.getElem?_eq_getElem hk])
  refine List.pairwise_iff_getElem.mpr fun i j hi hj hlt hsame => Nat.ne_of_lt hlt ?_
  exact Option.some.inj ((hindex i hi).symm.trans ((congrArg n.indexOf? hsame).trans (hindex j hj)))

variable [LawfulBEq α] [LawfulHashable α]

/-- **A new value gets an index of its own.** -/
theorem Lawful.push (hnew : n.indexOf? v = none) : (n.push v).Lawful :=
  lawful_iff_matched.mpr ((lawful_iff_matched.mp h).push hnew)

theorem Lawful.add (v : α) : (n.add v).2.Lawful :=
  lawful_iff_matched.mpr ((lawful_iff_matched.mp h).add v)

end Numbering

/-! ## 2. Universes -/

namespace Universe

variable {u : Universe} {v : Value} {i j : Nat}

theorem get?_eq_getElem? (u : Universe) (i : Nat) : u.get? i = u.values[i]? := by
  cases u <;> simp [values, Domain.values, get?, Domain.get?, Numbering.get?]

theorem size_eq_length (u : Universe) : u.size = u.values.length := by
  cases u <;> simp [values, Domain.values, size, Domain.size, Numbering.size]

/-- The values that stand in a universe. -/
theorem mem_values_iff : v ∈ u.values ↔ ∃ i, u.get? i = some v := by
  rw [List.mem_iff_getElem?]
  exact exists_congr fun i => by rw [get?_eq_getElem?]

section Standing

variable (h : u.get? i = some v)

include h

/-- A value that stands in a universe is of its type. -/
theorem type_eq_of_get? : u.type = v.type := by
  cases u <;> obtain ⟨_, _, rfl⟩ := Option.map_eq_some_iff.mp h <;> rfl

theorem lt_size_of_get? : i < u.size := by
  rw [get?_eq_getElem?] at h
  rw [size_eq_length]
  exact (List.getElem?_eq_some_iff.mp h).1

end Standing

/-- The index of a value is where it stands. -/
def Lawful : Universe → Prop
  | .strings d => d.numbering.Lawful
  | .words d => d.numbering.Lawful

section Lawful

variable (h : u.Lawful)

include h

theorem Lawful.indexOf?_eq_some_iff : u.indexOf? v = some i ↔ u.get? i = some v := by
  cases u with
  | strings d =>
      cases v with
      | string s => simpa [get?, indexOf?, Domain.get?, Domain.indexOf?] using h s i
      | word n => simp [get?, indexOf?]
  | words d =>
      cases v with
      | string s => simp [get?, indexOf?]
      | word n => simpa [get?, indexOf?, Domain.get?, Domain.indexOf?] using h n i

/-- **No value stands twice.** -/
theorem Lawful.position_inj (hi : u.get? i = some v) (hj : u.get? j = some v) : i = j :=
  Option.some.inj ((h.indexOf?_eq_some_iff.mpr hi).symm.trans (h.indexOf?_eq_some_iff.mpr hj))

theorem Lawful.add (v : Value) : (u.add v).2.Lawful := by
  cases u with
  | strings d =>
      cases v with
      | string s => exact Numbering.Lawful.add h s
      | word n => exact h
  | words d =>
      cases v with
      | string s => exact h
      | word n => exact Numbering.Lawful.add h n

end Lawful

end Universe

/-! ## 3. Made and read domains -/

namespace Domain

theorem lawful_create {α : Type} [BEq α] [Hashable α] {name : String} {canon : α → String}
    {d : Domain α} (h : create name canon = .ok d) : d.numbering.Lawful := by
  unfold create at h
  split at h
  · cases h
  · obtain rfl := Except.ok.inj h
    exact Numbering.lawful_empty

/-- Lines are numbered only where they are new. -/
theorem lawful_numberLines {path : Path} {lines : List String} {n n' : Numbering String}
    (h : n.Lawful) (run : numberLines path n lines = .ok n') : n'.Lawful := by
  induction lines generalizing n with
  | nil =>
      obtain rfl := Except.ok.inj run
      exact h
  | cons line lines ih =>
      rw [numberLines] at run
      split at run
      · cases run
      · rename_i hnew
        exact ih (h.push (by simpa using hnew)) run

/-- **A domain that is read numbers every line once.** -/
theorem lawful_load {files : Files} {folder : Path} {name : String} {d : Domain String}
    (h : load files folder name = .ok d) : d.numbering.Lawful := by
  obtain ⟨_, _, h⟩ := ok_of_bind h
  obtain ⟨_, _, h⟩ := ok_of_bind h
  obtain ⟨_, _, h⟩ := ok_of_bind h
  obtain ⟨numbering, hnumbered, h⟩ := ok_of_bind h
  obtain ⟨_, h⟩ := ok_of_unless h
  obtain rfl := Except.ok.inj h
  exact lawful_numberLines Numbering.lawful_empty hnumbered

end Domain

/-- A domain as it comes about: empty or from files, and with values that are added. -/
inductive Universe.Made : Universe → Prop
  | strings {name : String} {canon : String → String} {d : Domain String}
      (h : Domain.create name canon = .ok d) : Made (.strings d)
  | words {name : String} {canon : UInt32 → String} {d : Domain UInt32}
      (h : Domain.create name canon = .ok d) : Made (.words d)
  | load {files : Files} {folder : Path} {name : String} {d : Domain String}
      (h : Domain.load files folder name = .ok d) : Made (.strings d)
  | add {u : Universe} (h : Made u) (v : Value) : Made (u.add v).2

theorem Universe.Made.lawful {u : Universe} (h : u.Made) : u.Lawful := by
  induction h with
  | strings h => exact Domain.lawful_create h
  | words h => exact Domain.lawful_create h
  | load h => exact Domain.lawful_load h
  | add _ v ih => exact ih.add v

/-! ## 4. Catalogs -/

namespace Catalog

/-- Domains are entered and values are added. -/
inductive Built : Catalog → Prop
  | empty : Built {}
  | enter {cat : Catalog} {u : Universe} (h : Built cat) (hu : u.Made) : Built (cat.enter u).2
  | add {cat : Catalog} (h : Built cat) (handle : Nat) (v : Value) :
      Built (cat.add handle v).2

/-- **All domains in use are bijections.** -/
theorem Built.lawful {cat : Catalog} (h : cat.Built) (handle : Nat) :
    (cat.domain handle).Lawful := by
  induction h generalizing handle with
  | empty => exact Numbering.lawful_empty
  | enter _ hu ih =>
      unfold Catalog.enter domain
      dsimp only
      rw [Array.getElem?_push]
      split
      · exact hu.lawful
      · exact ih handle
  | @add cat _ handle' v ih =>
      unfold Catalog.add domain
      dsimp only
      rw [Array.getElem?_setIfInBounds]
      split
      · split
        · exact (ih handle').add v
        · exact Numbering.lawful_empty
      · rename_i hne
        rw [Array.getElem?_setIfInBounds_ne hne]
        exact ih handle

end Catalog

end Factbase
