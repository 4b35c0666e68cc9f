import Factbase.Proofs.Relation.Accepting
import Factbase.Proofs.Signatures

/-!
# Headers as text

A header that was written for slots says their widths and their variables, and is read by slots of
the same names in any order.

* `toList_render`: the lines of a header's text;
* `Written.spelledBy`: **they say what was written**, in any order of the slots;
* `Written.read_eq`: **the variables of every slot are found under its name**;
* `Written.read_tooWide`: **a slot that has become narrower is refused.**
-/

namespace Factbase.Relation.Header

open Text

/-! ## 1. Texts -/

/-- The field of a slot. -/
def slotField (name : String) (width : Nat) : List Char := name.toList ++ ':' :: width.repr.toList

/-- The fields of the line with a slot's variables. -/
def blockFields (vars : List Nat) : List (List Char) := ['#'] :: vars.map fun v => v.repr.toList

/-- The fields of the lines of a header. -/
def fields (names : List String) (slots : List (List Nat)) : List (List (List Char)) :=
  (['#'] :: (names.zip slots).map fun (name, vars) => slotField name vars.length) ::
    slots.map blockFields

theorem toList_line (fields : List String) :
    (line fields).toList = spaced (['#'] :: fields.map String.toList) ++ ['\n'] := by
  rw [line, String.toList_append, String.toList_join, List.flatMap_cons, spaced_cons,
    List.flatMap_map, List.flatMap_map]
  refine congrArg (fun cs => "#".toList ++ cs ++ ['\n']) (List.flatMap_congr fun field _ => ?_)
  rw [String.toList_append]
  rfl

theorem fields_eq (names : List String) (slots : List (List Nat)) : fields names slots =
    (['#'] :: (names.zip (slots.map List.length)).map fun p => slotField p.1 p.2) ::
      slots.map blockFields := by
  rw [List.zip_map_right, List.map_map]
  rfl

theorem toList_slotField (name : String) (width : Nat) :
    (s!"{name}:{width}").toList = slotField name width := by
  simp only [String.toList_append, slotField, List.append_assoc]
  rfl

/-- **The lines of a header's text.** -/
theorem toList_render (names : List String) (slots : List (List Nat)) :
    (render names slots).toList = unlines '\n' ((fields names slots).map spaced) := by
  have hblocks : (slots.map fun vars => line (vars.map toString)).flatMap String.toList =
      unlines '\n' ((slots.map blockFields).map spaced) := by
    rw [unlines, List.flatMap_map, List.flatMap_map, List.flatMap_map]
    refine List.flatMap_congr fun vars _ => ?_
    rw [toList_line, List.map_map]
    rfl
  have hslots : ((names.zip slots).map fun (name, vars) => s!"{name}:{vars.length}").map
      String.toList = (names.zip slots).map fun (name, vars) => slotField name vars.length := by
    rw [List.map_map]
    exact List.map_congr_left fun p _ => toList_slotField p.1 p.2.length
  rw [render, String.toList_append, String.toList_join, toList_line, hslots, hblocks]
  rfl

/-! ## 2. Fields -/

/-- What is written for a slot: its name, and its width or its variables. -/
theorem word_slotField {name : String} (h : WellNamed name) (width : Nat) :
    Word (slotField name width) ∧ Ascii (slotField name width) := by
  have hcolon : isBlank ':' = false ∧ ':'.toNat < 128 := by decide
  refine ⟨⟨by simp [slotField], fun c hc => ?_⟩, fun c hc => ?_⟩ <;>
    rcases List.mem_append.mp hc with hc | hc
  · exact h.word.solid c hc
  · rcases List.mem_cons.mp hc with rfl | hc
    · exact hcolon.1
    · exact (word_repr width).solid c hc
  · exact h.ascii c hc
  · rcases List.mem_cons.mp hc with rfl | hc
    · exact hcolon.2
    · exact ascii_repr width c hc

theorem word_blockFields (vars : List Nat) : ∀ cs ∈ blockFields vars, Word cs ∧ Ascii cs := by
  have hmark : Word ['#'] ∧ Ascii ['#'] := by
    refine ⟨⟨List.cons_ne_nil _ _, fun c hc => ?_⟩, fun c hc => ?_⟩ <;>
      obtain rfl := List.mem_singleton.mp hc
    · rfl
    · decide
  refine List.forall_mem_cons.mpr ⟨hmark, fun cs hcs => ?_⟩
  obtain ⟨v, _, rfl⟩ := List.mem_map.mp hcs
  exact ⟨word_repr v, ascii_repr v⟩

/-- The words behind the mark of a line. -/
theorem marked_spaced {fields : List (List Char)} (h : ∀ cs ∈ fields, Word cs) :
    Marked (spaced (['#'] :: fields)) fields := by
  cases fields with
  | nil => exact ⟨[], rfl, rfl⟩
  | cons cs fields =>
      refine ⟨' ' :: spaced (cs :: fields), by rw [spaced_cons_cons]; rfl, ?_⟩
      rw [words_blank (by decide), words_spaced h]

/-- The line of a slot's variables says them. -/
theorem spellsVariables_blockFields {vars : List Nat}
    (hsmall : ∀ v ∈ vars, v ≤ NumeralRange.word32.most) :
    SpellsVariables (spaced (blockFields vars)) vars := by
  refine ⟨_, marked_spaced (List.forall_mem_map.mpr fun v _ => word_repr v), ?_⟩
  rw [List.forall₂_map_left_iff, List.forall₂_same]
  exact fun v hv => numeral_repr (hsmall v hv)

/-! ## 3. Whole headers -/

/-- What a header can be written for: slots of different well-formed names and different variables,
whose numbers are not too large. -/
structure Written (names : List String) (slots : List (List Nat)) : Prop where
  nodup : names.Nodup
  wellNamed : ∀ name ∈ names, WellNamed name
  length : slots.length = names.length
  distinct : slots.flatten.Nodup
  small : ∀ v ∈ slots.flatten, v ≤ NumeralRange.word32.most
  narrow : ∀ vars ∈ slots, vars.length ≤ NumeralRange.word64.most

section Whole

variable {names names' : List String} {slots : List (List Nat)} (hw : Written names slots)

include hw

theorem Written.word_slotFields : ∀ cs ∈ (names.zip (slots.map List.length)).map
    fun p => slotField p.1 p.2, Word cs ∧ Ascii cs :=
  List.forall_mem_map.mpr fun p hp =>
    word_slotField (hw.wellNamed p.1 (List.of_mem_zip hp).1) p.2

theorem Written.word_fields : ∀ line ∈ fields names slots, ∀ cs ∈ line, Word cs ∧ Ascii cs := by
  rw [fields_eq]
  exact List.forall_mem_cons.mpr ⟨List.forall_mem_cons.mpr
    ⟨word_blockFields [] _ List.mem_cons_self, hw.word_slotFields⟩,
    List.forall_mem_map.mpr fun vars _ => word_blockFields vars⟩

variable (hperm : names'.Perm names)

include hperm

/-- The slots, by their names. -/
theorem Written.slots_eq : slots = names.map fun name =>
    (Signature.rearranged names names' slots)[names'.idxOf name]?.getD [] := by
  conv_lhs => rw [← Signature.rearranged_self hw.nodup hw.length, Signature.rearranged]
  refine List.map_congr_left fun name hname => ?_
  have hi : names'.idxOf name < names'.length :=
    List.idxOf_lt_length_iff.mpr (hperm.mem_iff.mpr hname)
  rw [Signature.rearranged, List.getElem?_map, List.getElem?_eq_getElem hi, List.getElem_idxOf]
  rfl

variable (rest : List (Option (List Char)))

/-- **What is written says so**, in any order of the slots. -/
theorem Written.spelledBy : SpelledBy names' (Signature.rearranged names names' slots)
    (((fields names slots).map spaced).map some ++ rest) rest := by
  have hslots := hw.slots_eq hperm
  generalize Signature.rearranged names names' slots = fileVars at hslots ⊢
  have hzip : names.zip slots = names.map fun name =>
      (name, fileVars[names'.idxOf name]?.getD []) := by
    conv_lhs => rw [hslots, ← List.map_id names, List.map_map, List.zip_map']
    rfl
  have hmem : ∀ name ∈ names, fileVars[names'.idxOf name]?.getD [] ∈ slots := fun name hname => by
    rw [hslots]
    exact List.mem_map_of_mem hname
  refine ⟨_, _, names.map (names'.idxOf ·), (slots.map blockFields).map spaced, rfl, ?_,
    marked_spaced fun cs hcs =>
      (hw.word_fields _ List.mem_cons_self cs (List.mem_cons_of_mem _ hcs)).1, ?_, ?_⟩
  · rw [← Signature.map_idxOf (hperm.nodup_iff.mpr hw.nodup)]
    exact hperm.symm.map _
  · rw [hzip, List.map_map, List.forall₂_map_left_iff, List.forall₂_map_right_iff,
      List.forall₂_same]
    intro name hname
    have hi : names'.idxOf name < names'.length :=
      List.idxOf_lt_length_iff.mpr (hperm.mem_iff.mpr hname)
    refine ⟨name, _, rfl, (hw.wellNamed name hname).no_colon, ?_,
      numeral_repr (hw.narrow _ (hmem name hname))⟩
    rw [List.getElem?_eq_getElem hi, List.getElem_idxOf]
  · rw [List.map_map, List.forall₂_map_left_iff]
    conv_lhs => rw [hslots]
    rw [List.forall₂_map_left_iff, List.forall₂_map_right_iff, List.forall₂_same]
    exact fun name hname => spellsVariables_blockFields fun v hv =>
      hw.small v (List.mem_flatten.mpr ⟨_, hmem name hname, hv⟩)

variable {widths : List Nat} (hwidths : widths.length = names'.length)

include hwidths

/-- **The variables of every slot are found under its name.** -/
theorem Written.read_eq (hroom : List.Forall₂ (fun vars width => List.length vars ≤ width)
      (Signature.rearranged names names' slots) widths) :
    read names' widths (((fields names slots).map spaced).map some ++ rest) =
      .ok (Signature.rearranged names names' slots, rest) :=
  (hw.spelledBy hperm rest).read_eq (hperm.nodup_iff.mpr hw.nodup) hwidths hroom
    ((Signature.perm_rearranged hw.nodup hperm hw.length).flatten.nodup_iff.mpr hw.distinct)

/-- **A slot that has become narrower is refused.** -/
theorem Written.read_tooWide (hnarrow : ¬ List.Forall₂ (fun vars width => List.length vars ≤ width)
      (Signature.rearranged names names' slots) widths) :
    ∃ name saved available,
      read names' widths (((fields names slots).map spaced).map some ++ rest) =
        .error (.format (.tooWide name saved available)) :=
  (hw.spelledBy hperm rest).read_tooWide (hperm.nodup_iff.mpr hw.nodup) hwidths
    (by rw [Signature.rearranged, List.length_map]) hnarrow

end Whole

end Factbase.Relation.Header
