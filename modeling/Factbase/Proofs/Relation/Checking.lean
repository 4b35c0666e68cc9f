import Factbase.Proofs.Relation.Encoding
import Factbase.Relation.Tuples

/-!
# Which tuples are accepted

* `Valid`: a tuple has an index for every slot, below the present size of the slot's domain and
  within the bits that the slot got on opening;
* `InSlot`: the same of a single index;
* `checkTuple_eq`, `checkTuple_error`: **the checks let exactly the valid tuples pass, as they
  are**, and name what is wrong with any other.
-/

namespace Factbase.Relation

open Diagram

/-- The tuple is accepted by an open relation. -/
structure Valid (cat : Catalog) (schema : Schema) (layout : Layout) (t : List Nat) : Prop where
  arity : t.length = layout.arity
  inDomain : ∀ (slot index : Nat), t[slot]? = some index → index < (schema.domain cat slot).size
  inWidth : ∀ (slot index : Nat), t[slot]? = some index → index < 2 ^ layout.width slot

/-- The index is accepted in a slot: its domain has it at present, and it fits the bits that the
slot got on opening. -/
def InSlot (cat : Catalog) (schema : Schema) (layout : Layout) (slot index : Nat) : Prop :=
  index < (schema.domain cat slot).size ∧ index < 2 ^ layout.width slot

instance (cat : Catalog) (schema : Schema) (layout : Layout) (slot index : Nat) :
    Decidable (InSlot cat schema layout slot index) :=
  inferInstanceAs (Decidable (_ ∧ _))

/-- What may be wrong with a tuple of indices. -/
inductive Misfit : RelationProblem → Prop
  | arity (expected found : Nat) : Misfit (.arityMismatch expected found)
  | range (domain : String) (slot index size : Nat) :
      Misfit (.indexOutOfRange domain slot index size)

section Checks

variable {cat : Catalog} {schema : Schema} {layout : Layout} {t : List Nat}

/-- A valid tuple fits the layout. -/
theorem Valid.fits (h : Valid cat schema layout t) : layout.Fits t := by
  refine List.forall₂_iff_get.mpr ⟨h.arity.symm, fun i hi hi' => ?_⟩
  have hlt := h.inWidth i t[i] (List.getElem?_eq_getElem hi')
  unfold Layout.width Layout.vars at hlt
  rwa [List.getElem?_eq_getElem hi] at hlt

/-- A tuple that fits the layout is valid where its indices are below the present sizes. -/
theorem valid_of_fits (ht : layout.Fits t)
    (hin : ∀ slot index, t[slot]? = some index → index < (schema.domain cat slot).size) :
    Valid cat schema layout t where
  arity := ht.length_eq.symm
  inDomain := hin
  inWidth slot index hindex := by
    obtain ⟨vars, hvars, hlt⟩ := exists_of_forall₂ ht.flip hindex
    rwa [Layout.width, Layout.vars, hvars]

/-- The two checks of an index. -/
theorem checkSlot_spec (slot index : Nat) : checkSlot cat schema layout slot index =
    let u := schema.domain cat slot
    if index < u.size then
      if index < 2 ^ layout.width slot then .ok index
      else .error (.indexOutOfRange u.name slot index (2 ^ layout.width slot))
    else .error (.indexOutOfRange u.name slot index u.size) := by
  simp only [checkSlot, checkIndex]
  split <;> rfl

/-- An index that is refused is out of range. -/
theorem misfit_of_checkSlot {slot index : Nat} {problem : RelationProblem}
    (h : checkSlot cat schema layout slot index = .error problem) : Misfit problem := by
  simp only [checkSlot_spec] at h
  split at h
  · split at h
    · cases h
    · obtain rfl := Except.error.inj h
      exact .range _ _ _ _
  · obtain rfl := Except.error.inj h
    exact .range _ _ _ _

/-- An index is accepted where it is below the size of the domain and fits the slot. -/
theorem checkSlot_eq_ok_iff {slot index index' : Nat} :
    checkSlot cat schema layout slot index = .ok index' ↔ index' = index ∧
      index < (schema.domain cat slot).size ∧ index < 2 ^ layout.width slot := by
  simp only [checkSlot_spec]
  split
  · split
    · rw [Except.ok.injEq]
      tauto
    · simp only [reduceCtorEq, false_iff]
      tauto
  · simp only [reduceCtorEq, false_iff]
    tauto

theorem checkSlot_eq {slot index : Nat} (h : InSlot cat schema layout slot index) :
    checkSlot cat schema layout slot index = .ok index :=
  checkSlot_eq_ok_iff.mpr ⟨rfl, h⟩

theorem checkSlot_error {slot index : Nat} (h : ¬ InSlot cat schema layout slot index) :
    ∃ problem, checkSlot cat schema layout slot index = .error problem := by
  cases hcheck : checkSlot cat schema layout slot index with
  | error problem => exact ⟨problem, rfl⟩
  | ok index' => exact absurd (checkSlot_eq_ok_iff.mp hcheck).2 h

/-- **A valid tuple passes as it is.** -/
theorem checkTuple_eq (h : Valid cat schema layout t) :
    checkTuple cat schema layout t = .ok t := by
  unfold checkTuple checkArity
  rw [if_pos h.arity]
  show (t.zipIdx).mapM _ = _
  rw [mapM_eq_ok (g := Prod.fst)]
  · rw [List.zipIdx_map_fst]
  · rintro ⟨index, slot⟩ hmem
    have hget := List.mem_zipIdx_iff_getElem?.mp hmem
    exact checkSlot_eq_ok_iff.mpr ⟨rfl, h.inDomain slot index hget, h.inWidth slot index hget⟩

/-- **Any other tuple is refused**, for its arity or for an index out of range. -/
theorem checkTuple_error (h : ¬ Valid cat schema layout t) :
    ∃ problem, checkTuple cat schema layout t = .error problem ∧ Misfit problem := by
  unfold checkTuple checkArity
  by_cases harity : t.length = layout.arity
  · rw [if_pos harity]
    show ∃ problem, (t.zipIdx).mapM _ = _ ∧ _
    have hbad : ∃ x ∈ t.zipIdx, ∀ y, checkSlot cat schema layout x.2 x.1 ≠ .ok y := by
      by_contra hall
      have hok : ∀ (slot index : Nat), t[slot]? = some index →
          index < (schema.domain cat slot).size ∧ index < 2 ^ layout.width slot :=
        fun slot index hget => by
          by_contra hno
          exact hall ⟨(index, slot), List.mem_zipIdx_iff_getElem?.mpr hget, fun y hy =>
            hno (checkSlot_eq_ok_iff.mp hy).2⟩
      exact h ⟨harity, fun slot index hget => (hok slot index hget).1,
        fun slot index hget => (hok slot index hget).2⟩
    obtain ⟨problem, run, x, _, hx⟩ := mapM_eq_error hbad
    exact ⟨problem, run, misfit_of_checkSlot hx⟩
  · rw [if_neg harity]
    exact ⟨_, rfl, .arity _ _⟩

/-- What passes is valid. -/
theorem valid_of_checkTuple {t' : List Nat} (h : checkTuple cat schema layout t = .ok t') :
    Valid cat schema layout t ∧ t' = t := by
  by_cases hv : Valid cat schema layout t
  · rw [checkTuple_eq hv] at h
    exact ⟨hv, (Except.ok.inj h).symm⟩
  · obtain ⟨problem, run, _⟩ := checkTuple_error hv
    rw [run] at h
    cases h

end Checks

end Factbase.Relation
