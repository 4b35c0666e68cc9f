import Factbase.Proofs.Outcome
import Factbase.Proofs.Text.Cutting
import Factbase.Proofs.Text.Numerals
import Factbase.Relation.Header
import Mathlib.Data.List.Perm.Subperm

/-!
# Which headers are accepted

A header need not be one that was written: it may have blanks anywhere between its fields, signs
before its numbers, and any variables. What the reader accepts says, in some order of the slots, how
wide every slot is, and then which variables it has; and all that says so is accepted, where the
slots have room and no variable stands twice.

* `SpelledBy`: what the lines of a header say;
* `SpellsSlot.readSlot_eq`: a slot is found under its name, and refused where there is no room;
* `readSlots_eq_ok_iff`: the slots of the first line, each of them once;
* `readVariables_eq_ok_iff`, `readBlocks_eq_ok_iff`: the variables of the slots, each of them once;
* `read_eq_ok_iff`: **a header is accepted just when it says what is read.**
-/

namespace Factbase.Relation.Header

open Text

/-! ## 1. What a header says -/

/-- The line starts with its mark, and has these words behind it. -/
def Marked (cs : List Char) (fields : List (List Char)) : Prop :=
  ∃ rest, cs = '#' :: rest ∧ words rest = fields

/-- The field gives a slot, by its name, a number of bits. -/
def SpellsSlot (names : List String) (field : List Char) (slot width : Nat) : Prop :=
  ∃ (name : String) (widthText : List Char), field = name.toList ++ ':' :: widthText ∧
    ':' ∉ name.toList ∧ names[slot]? = some name ∧ Numeral .word64 widthText width

/-- The words are numerals of the variables. -/
def SpellsVariables (cs : List Char) (vars : List Nat) : Prop :=
  ∃ fields, Marked cs fields ∧
    List.Forall₂ (fun field (v : Nat) => Numeral .word32 field v) fields vars

/-- The lines start with a header, which gives every slot, in some order of the slots, its number of
bits and then its variables. -/
def SpelledBy (names : List String) (fileVars : List (List Nat)) (lines rest :
    List (Option (List Char))) : Prop :=
  ∃ first fields order blocks, lines = some first :: (blocks.map some ++ rest) ∧
    order.Perm (List.range names.length) ∧ Marked first fields ∧
    List.Forall₂ (fun field slot =>
      SpellsSlot names field slot (fileVars[slot]?.getD []).length) fields order ∧
    List.Forall₂ (fun cs slot => SpellsVariables cs (fileVars[slot]?.getD [])) blocks order

/-! ## 2. Single lines -/

section Lines

variable {line : Option (Option (List Char))} {text cs rest : List Char}
  {fields : List (List Char)} {problem : HeaderProblem}

theorem unmark_eq_ok_iff : unmark problem cs = .ok rest ↔ cs = '#' :: rest := by
  constructor
  · intro h
    unfold unmark at h
    split at h
    · rw [Except.ok.inj h]
    · cases h
  · rintro rfl
    rfl

/-- A line whose mark is found has it in front. -/
theorem exists_marked (h : lineText line = .ok ('#' :: rest)) :
    ∃ text, line = some (some text) ∧ Marked text (words rest) := by
  unfold lineText at h
  split at h
  · cases h
  · cases h
  · rename_i text
    obtain ⟨blanks, hblanks, hsplit⟩ := exists_blanks_trimEnd text
    rw [Except.ok.inj h] at hsplit
    exact ⟨text, rfl, rest ++ blanks, hsplit, wordsFrom_append_blanks hblanks [] rest⟩

/-- A line with its mark is found. -/
theorem Marked.lineText_eq (h : Marked text fields) :
    ∃ rest, lineText (some (some text)) = .ok ('#' :: rest) ∧ words rest = fields := by
  obtain ⟨rest, rfl, hwords⟩ := h
  refine ⟨trimEnd rest, ?_, (words_trimEnd rest).trans hwords⟩
  rw [lineText, trimEnd_cons (by decide)]

end Lines

/-! ## 3. Slots -/

section Slots

variable {names : List String} {widths : List Nat} {before : FileSlots} {field : List Char}
  {slot width : Nat}

/-- **A slot is found under its name, and is refused where there is no room for it.** -/
theorem SpellsSlot.readSlot_eq (hnodup : names.Nodup) (h : SpellsSlot names field slot width)
    (hnew : ∀ p ∈ before, p.1 ≠ slot) : ∃ name, readSlot names widths before field =
      if widths[slot]?.getD 0 < width then
        .error (.format (.tooWide name width (widths[slot]?.getD 0)))
      else .ok (slot, width) := by
  obtain ⟨name, widthText, rfl, hcolon, hname, hwidth⟩ := h
  obtain ⟨hlt, hget⟩ := List.getElem?_eq_some_iff.mp hname
  have hindex : names.idxOf? (String.ofList name.toList) = some slot := by
    rw [String.ofList_toList, ← hget]
    refine List.findIdx?_eq_some_iff_findIdx_eq.mpr ⟨hlt, ?_⟩
    exact hnodup.idxOf_getElem slot hlt
  have hany : before.any (·.1 == slot) = false := by
    simpa using fun earlier width hmem => hnew (earlier, width) hmem
  have hbits : readNat .word64 widthText = .ok width := (readNat_eq_ok_iff rfl).mpr hwidth
  refine ⟨name.toList, ?_⟩
  unfold readSlot
  rw [cut?_append hcolon]
  dsimp only
  rw [hindex]
  dsimp only
  rw [hbits]
  dsimp only
  rw [hany]
  rfl

/-- A field is accepted just when it gives a slot that is new a number of bits that it has. -/
theorem readSlot_eq_ok_iff (hnodup : names.Nodup) :
    readSlot names widths before field = .ok (slot, width) ↔
      SpellsSlot names field slot width ∧ (∀ p ∈ before, p.1 ≠ slot) ∧
        width ≤ widths[slot]?.getD 0 := by
  constructor
  · intro h
    unfold readSlot at h
    cases hcut : cut? ':' field with
    | none => rw [hcut] at h; cases h
    | some parts =>
        obtain ⟨name, widthText⟩ := parts
        rw [hcut] at h
        dsimp only at h
        cases hindex : names.idxOf? (String.ofList name) with
        | none => rw [hindex] at h; cases h
        | some found =>
            rw [hindex] at h
            dsimp only at h
            cases hwidth : readNat .word64 widthText with
            | error error => rw [hwidth] at h; cases h
            | ok bits =>
                rw [hwidth] at h
                obtain ⟨hnew, h⟩ := ok_of_unless h
                obtain ⟨hroom, h⟩ := ok_of_unless h
                obtain ⟨rfl, rfl⟩ := Prod.mk.inj (Except.ok.inj h)
                obtain ⟨hcolon, rfl⟩ := cut?_eq_some_iff.mp hcut
                obtain ⟨hlt, hget, _⟩ := List.findIdx?_eq_some_iff_getElem.mp hindex
                refine ⟨⟨String.ofList name, widthText, ?_, ?_, ?_,
                  (readNat_eq_ok_iff rfl).mp hwidth⟩, fun p hp hsame => ?_, Nat.not_lt.mp hroom⟩
                · rw [String.toList_ofList]
                · rwa [String.toList_ofList]
                · rw [List.getElem?_eq_getElem hlt, beq_iff_eq.mp hget]
                · exact hnew (List.any_eq_true.mpr ⟨p, hp, beq_iff_eq.mpr hsame⟩)
  · rintro ⟨hspells, hnew, hroom⟩
    obtain ⟨name, hread⟩ : ∃ name, readSlot names widths before field = _ :=
      hspells.readSlot_eq hnodup hnew
    rw [hread, if_neg (Nat.not_lt.mpr hroom)]

/-- **The slots of a first line that is accepted**, each of them once. -/
theorem readSlots_eq_ok_iff (hnodup : names.Nodup) : ∀ {fields : List (List Char)}
    {before slots : FileSlots}, (before.map Prod.fst).Nodup →
    (readSlots names widths before fields = .ok slots ↔ ∃ found, slots = before ++ found ∧
      List.Forall₂ (fun field (p : Nat × Nat) => SpellsSlot names field p.1 p.2) fields found ∧
      (∀ p ∈ found, p.2 ≤ widths[p.1]?.getD 0) ∧ (slots.map Prod.fst).Nodup)
  | [], before, slots, hbefore => by
      constructor
      · intro h
        obtain rfl := Except.ok.inj h
        exact ⟨[], (List.append_nil _).symm, .nil, fun _ hp => absurd hp List.not_mem_nil, hbefore⟩
      · rintro ⟨found, rfl, hall, _, _⟩
        cases hall
        rw [List.append_nil]
        rfl
  | field :: fields, before, slots, hbefore => by
      have hadd : ∀ {slot width : Nat}, (∀ p ∈ before, p.1 ≠ slot) →
          ((before ++ [(slot, width)]).map Prod.fst).Nodup := by
        intro slot width hnew
        rw [List.map_append, List.nodup_append]
        refine ⟨hbefore, List.pairwise_singleton _ _, fun a ha b hb => ?_⟩
        obtain ⟨p, hp, rfl⟩ := List.mem_map.mp ha
        obtain rfl := List.mem_singleton.mp hb
        exact hnew p hp
      constructor
      · intro h
        obtain ⟨⟨slot, width⟩, hslot, h⟩ := ok_of_bind h
        obtain ⟨hspells, hnew, hroom⟩ := (readSlot_eq_ok_iff hnodup).mp hslot
        obtain ⟨found, rfl, hall, hrooms, hslots⟩ :=
          (readSlots_eq_ok_iff hnodup (hadd hnew)).mp h
        exact ⟨(slot, width) :: found, List.append_assoc _ _ _, .cons hspells hall,
          List.forall_mem_cons.mpr ⟨hroom, hrooms⟩, hslots⟩
      · rintro ⟨found, rfl, hall, hrooms, hslots⟩
        obtain _ | ⟨hspells, hall⟩ := hall
        rename_i p found
        obtain ⟨hroom, hrooms⟩ := List.forall_mem_cons.mp hrooms
        have hnew : ∀ q ∈ before, q.1 ≠ p.1 := by
          rw [List.map_append, List.nodup_append] at hslots
          exact fun q hq => hslots.2.2 _ (List.mem_map_of_mem hq) _ List.mem_cons_self
        rw [List.append_cons] at hslots ⊢
        exact bind_eq_ok ((readSlot_eq_ok_iff hnodup).mpr ⟨hspells, hnew, hroom⟩)
          ((readSlots_eq_ok_iff hnodup (hadd hnew)).mpr ⟨found, rfl, hall, hrooms, hslots⟩)

/-- **The first slot that is too narrow stops the reader.** -/
theorem readSlots_tooWide (hnodup : names.Nodup) : ∀ {fields : List (List Char)}
    {before found : FileSlots},
    List.Forall₂ (fun field (p : Nat × Nat) => SpellsSlot names field p.1 p.2) fields found →
    ((before ++ found).map Prod.fst).Nodup → (∃ p ∈ found, widths[p.1]?.getD 0 < p.2) →
    ∃ name saved available,
      readSlots names widths before fields = .error (.format (.tooWide name saved available))
  | _, _, _, .nil, _, ⟨_, hp, _⟩ => absurd hp List.not_mem_nil
  | field :: fields, before, p :: found, .cons hspells hall, hslots, hnarrow => by
      have hnew : ∀ q ∈ before, q.1 ≠ p.1 := by
        rw [List.map_append, List.nodup_append] at hslots
        exact fun q hq => hslots.2.2 _ (List.mem_map_of_mem hq) _ List.mem_cons_self
      obtain ⟨name, hread⟩ : ∃ name, readSlot names widths before field = _ :=
        hspells.readSlot_eq hnodup hnew
      rw [readSlots]
      by_cases hlt : widths[p.1]?.getD 0 < p.2
      · rw [hread, if_pos hlt]
        exact ⟨_, _, _, rfl⟩
      · have hrest : ∃ q ∈ found, widths[q.1]?.getD 0 < q.2 := by
          obtain ⟨q, hq, hqlt⟩ := hnarrow
          rcases List.mem_cons.mp hq with rfl | hq
          · exact absurd hqlt hlt
          · exact ⟨q, hq, hqlt⟩
        rw [List.append_cons] at hslots
        rw [hread, if_neg hlt]
        exact readSlots_tooWide hnodup hall hslots hrest

end Slots

/-! ## 4. Variables -/

/-- Nothing repeats exactly where all variables differ. -/
theorem firstRepeat?_eq_none_iff : ∀ {vars seen : List Nat}, seen.Nodup →
    (firstRepeat? seen vars = none ↔ (seen ++ vars).Nodup)
  | [], seen, hseen => by
      rw [List.append_nil]
      exact iff_of_true rfl hseen
  | v :: vars, seen, hseen => by
      rw [firstRepeat?, List.perm_middle.nodup_iff]
      by_cases hv : v ∈ seen
      · rw [if_pos (List.contains_iff_mem.mpr hv)]
        exact iff_of_false (fun h => by cases h) fun h =>
          (List.nodup_cons.mp h).1 (List.mem_append_left _ hv)
      · rw [if_neg (List.contains_iff_mem.not.mpr hv),
          firstRepeat?_eq_none_iff (List.nodup_cons.mpr ⟨hv, hseen⟩), List.cons_append]

section Variables

variable {name : String} {width : Nat} {seen vars : List Nat} {cs : List Char}

/-- **A line of variables that is accepted** has as many as the slot has bits, and none of those
before. -/
theorem readVariables_eq_ok_iff (hseen : seen.Nodup) :
    readVariables name width seen cs = .ok vars ↔ ∃ rest, cs = '#' :: rest ∧
      List.Forall₂ (fun field (v : Nat) => Numeral .word32 field v) (words rest) vars ∧
      vars.length = width ∧ (seen ++ vars).Nodup := by
  have hnumerals {fields : List (List Char)} {vs : List Nat} :
      fields.mapM (readNat .word32) = .ok vs ↔
        List.Forall₂ (fun field (v : Nat) => Numeral .word32 field v) fields vs := by
    have hread {field : List Char} {v : Nat} :
        readNat .word32 field = .ok v ↔ Numeral .word32 field v := readNat_eq_ok_iff rfl
    simp only [mapM_eq_ok_iff, hread]
  unfold readVariables
  constructor
  · intro h
    obtain ⟨rest, hmark, h⟩ := ok_of_bind h
    obtain ⟨found, hfound, h⟩ := ok_of_bind h
    obtain ⟨hcount, h⟩ := ok_of_unless h
    cases hrepeat : firstRepeat? seen found with
    | some v => rw [hrepeat] at h; cases h
    | none =>
        rw [hrepeat] at h
        obtain rfl := Except.ok.inj h
        exact ⟨rest, unmark_eq_ok_iff.mp hmark, hnumerals.mp (ok_of_mapError hfound),
          not_not.mp hcount, (firstRepeat?_eq_none_iff hseen).mp hrepeat⟩
  · rintro ⟨rest, rfl, hfound, hcount, hdistinct⟩
    refine bind_eq_ok rfl (bind_eq_ok (by rw [hnumerals.mpr hfound]; rfl) ?_)
    refine unless_eq_ok (not_not.mpr hcount) ?_
    rw [(firstRepeat?_eq_none_iff hseen).mpr hdistinct]
    rfl

end Variables

section Blocks

variable {names : List String}

/-- **The lines of variables that are accepted**, no variable twice. -/
theorem readBlocks_eq_ok_iff : ∀ {slots : FileSlots} {seen : List Nat}
    {lines : List (Option (List Char))} {blocks : List (Nat × List Nat)}, seen.Nodup →
    (readBlocks names slots seen lines = .ok blocks ↔
      (∃ texts rest, lines = texts.map some ++ rest ∧
        List.Forall₂ (fun cs (p : Nat × List Nat) => SpellsVariables cs p.2) texts blocks) ∧
      blocks.map (fun p => (p.1, p.2.length)) = slots ∧
      (seen ++ (blocks.map Prod.snd).flatten).Nodup)
  | [], seen, lines, blocks, hseen => by
      constructor
      · intro h
        obtain rfl := Except.ok.inj h
        exact ⟨⟨[], lines, rfl, .nil⟩, rfl, by
          rwa [List.map_nil, List.flatten_nil, List.append_nil]⟩
      · rintro ⟨_, hslots, _⟩
        rw [List.map_eq_nil_iff.mp hslots]
        rfl
  | (slot, width) :: slots, seen, lines, blocks, hseen => by
      constructor
      · intro h
        obtain ⟨cs, hcs, h⟩ := ok_of_bind h
        obtain ⟨vars, hvars, h⟩ := ok_of_bind h
        obtain ⟨others, hothers, h⟩ := ok_of_bind h
        obtain rfl := Except.ok.inj h
        obtain ⟨marked, rfl, hnumerals, rfl, hnodup⟩ := (readVariables_eq_ok_iff hseen).mp hvars
        obtain ⟨text, hline, hmarked⟩ := exists_marked hcs
        obtain ⟨⟨texts, rest, htexts, hall⟩, rfl, hnodups⟩ :=
          (readBlocks_eq_ok_iff hnodup).mp hothers
        refine ⟨⟨text :: texts, rest, ?_, .cons ⟨_, hmarked, hnumerals⟩ hall⟩, rfl, ?_⟩
        · cases lines with
          | nil => cases hline
          | cons line lines =>
              obtain rfl := Option.some.inj hline
              exact congrArg _ htexts
        · rwa [List.map_cons, List.flatten_cons, ← List.append_assoc]
      · rintro ⟨⟨texts, rest, rfl, hall⟩, hslots, hnodups⟩
        cases hall with
        | nil => cases hslots
        | @cons text p texts others hspells hall =>
            obtain ⟨hslot, rfl⟩ := List.cons.inj hslots
            obtain ⟨rfl, rfl⟩ := Prod.mk.inj hslot
            obtain ⟨fields, hmarked, hnumerals⟩ := hspells
            obtain ⟨marked, hline, rfl⟩ := hmarked.lineText_eq
            rw [List.map_cons, List.flatten_cons, ← List.append_assoc] at hnodups
            have hnodup : (seen ++ p.2).Nodup := (List.nodup_append.mp hnodups).1
            exact bind_eq_ok hline (bind_eq_ok
              ((readVariables_eq_ok_iff hseen).mpr ⟨marked, rfl, hnumerals, rfl, hnodup⟩)
              (bind_eq_ok ((readBlocks_eq_ok_iff hnodup).mpr
                ⟨⟨texts, rest, rfl, hall⟩, rfl, hnodups⟩) rfl))

end Blocks

/-! ## 5. Whole headers -/

/-- Blocks of different slots are found under them. -/
theorem lookup_of_mem {slot : Nat} {vars : List Nat} : ∀ {blocks : List (Nat × List Nat)},
    (blocks.map Prod.fst).Nodup → (slot, vars) ∈ blocks → blocks.lookup slot = some vars
  | [], _, h => absurd h List.not_mem_nil
  | (key, found) :: blocks, hnodup, h => by
      obtain ⟨hnew, hnodup⟩ := List.nodup_cons.mp hnodup
      rw [List.lookup_cons]
      rcases List.mem_cons.mp h with hsame | hmem
      · obtain ⟨rfl, rfl⟩ := Prod.mk.inj hsame
        rw [beq_self_eq_true]
      · have hslot : slot ∈ blocks.map Prod.fst := List.mem_map.mpr ⟨_, hmem, rfl⟩
        have hne : slot ≠ key := fun hsame => hnew (hsame ▸ hslot)
        rw [beq_eq_false_iff_ne.mpr hne]
        exact lookup_of_mem hnodup hmem

/-- Different numbers below a bound, as many as there are, are all of them. -/
theorem perm_range {order : List Nat} {n : Nat} (hnodup : order.Nodup) (hlt : ∀ k ∈ order, k < n)
    (hlen : order.length = n) : order.Perm (List.range n) :=
  (List.subperm_of_subset hnodup fun k hk => List.mem_range.mpr (hlt k hk)).perm_of_length_le
    (Nat.le_of_eq (List.length_range.trans hlen.symm))

/-- Slots that are given their numbers of bits, as many as there are, are all of them. -/
theorem perm_of_spellsSlot {names : List String} {fields : List (List Char)} {slots : FileSlots}
    (h : List.Forall₂ (fun field (p : Nat × Nat) => SpellsSlot names field p.1 p.2) fields slots)
    (hnodup : (slots.map Prod.fst).Nodup) (hlen : slots.length = names.length) :
    (slots.map Prod.fst).Perm (List.range names.length) := by
  refine perm_range hnodup (fun slot hslot => ?_) (by rw [List.length_map, hlen])
  obtain ⟨p, hp, rfl⟩ := List.mem_map.mp hslot
  obtain ⟨i, hi⟩ := List.mem_iff_getElem?.mp hp
  obtain ⟨_, _, _, _, _, _, hname, _⟩ := exists_of_forall₂ h.flip hi
  exact (List.getElem?_eq_some_iff.mp hname).1

section Found

/-- The variables of every slot that blocks have, in the order of the slots. -/
def arranged (n : Nat) (blocks : List (Nat × List Nat)) : List (List Nat) :=
  (List.range n).map fun slot => (blocks.lookup slot).getD []

/-- The blocks of the slots in an order of them. -/
def blocksOf (fileVars : List (List Nat)) (order : List Nat) : List (Nat × List Nat) :=
  order.map fun slot => (slot, fileVars[slot]?.getD [])

theorem map_fst_blocksOf (fileVars : List (List Nat)) (order : List Nat) :
    (blocksOf fileVars order).map Prod.fst = order := by
  rw [blocksOf, List.map_map]
  exact List.map_id order

theorem length_arranged (n : Nat) (blocks : List (Nat × List Nat)) :
    (arranged n blocks).length = n := by
  rw [arranged, List.length_map, List.length_range]

section Slots

variable {names : List String} {fields : List (List Char)} {fileVars : List (List Nat)}
  {order : List Nat}

/-- The slots of the blocks with their numbers of bits. -/
theorem forall₂_blocksOf (h : List.Forall₂ (fun field slot =>
      SpellsSlot names field slot (fileVars[slot]?.getD []).length) fields order) :
    List.Forall₂ (fun field (p : Nat × Nat) => SpellsSlot names field p.1 p.2) fields
      ((blocksOf fileVars order).map fun p => (p.1, p.2.length)) := by
  rw [blocksOf, List.map_map, List.forall₂_map_right_iff]
  exact h

theorem nodup_blocksOf (h : order.Nodup) : (((blocksOf fileVars order).map fun p =>
    (p.1, p.2.length)).map Prod.fst).Nodup := by
  rw [List.map_map]
  show ((blocksOf fileVars order).map Prod.fst).Nodup
  rwa [map_fst_blocksOf]

end Slots

/-- Blocks that have every slot once are those of what they are arranged to. -/
theorem eq_blocksOf {blocks : List (Nat × List Nat)} {n : Nat}
    (hperm : (blocks.map Prod.fst).Perm (List.range n)) :
    blocks = blocksOf (arranged n blocks) (blocks.map Prod.fst) := by
  have hnodup : (blocks.map Prod.fst).Nodup := hperm.nodup_iff.mpr List.nodup_range
  rw [blocksOf, List.map_map]
  refine (List.map_id blocks).symm.trans (List.map_congr_left fun p hp => ?_)
  have hlt : p.1 < n := List.mem_range.mp (hperm.mem_iff.mp (List.mem_map_of_mem hp))
  rw [Function.comp_apply, arranged, List.getElem?_map, List.getElem?_range hlt, Option.map_some,
    Option.getD_some, lookup_of_mem hnodup hp, Option.getD_some, id]

variable {fileVars : List (List Nat)} {order : List Nat}
  (hperm : order.Perm (List.range fileVars.length))

include hperm

/-- And they are arranged back. -/
theorem arranged_blocksOf : arranged fileVars.length (blocksOf fileVars order) = fileVars := by
  have hnodup : ((blocksOf fileVars order).map Prod.fst).Nodup := by
    rw [map_fst_blocksOf]
    exact hperm.nodup_iff.mpr List.nodup_range
  refine List.ext_getElem (length_arranged _ _) fun slot _ hslot => ?_
  have hmem : (slot, fileVars[slot]) ∈ blocksOf fileVars order := by
    refine List.mem_map.mpr ⟨slot, hperm.mem_iff.mpr (List.mem_range.mpr hslot), ?_⟩
    rw [List.getElem?_eq_getElem hslot, Option.getD_some]
  simp only [arranged, List.getElem_map, List.getElem_range, lookup_of_mem hnodup hmem,
    Option.getD_some]

/-- The blocks have the variables of the slots. -/
theorem flatten_blocksOf :
    ((blocksOf fileVars order).map Prod.snd).flatten.Perm fileVars.flatten := by
  have hslots : (List.range fileVars.length).map (fun slot => fileVars[slot]?.getD []) =
      fileVars := by
    refine List.ext_getElem (by rw [List.length_map, List.length_range]) fun slot _ hslot => ?_
    rw [List.getElem_map, List.getElem_range, List.getElem?_eq_getElem hslot, Option.getD_some]
  conv_rhs => rw [← hslots]
  rw [blocksOf, List.map_map]
  exact (hperm.map _).flatten

/-- There is room for all of them where there is for every slot. -/
theorem forall_room_iff {widths : List Nat} (hlen : widths.length = fileVars.length) :
    (∀ slot ∈ order, (fileVars[slot]?.getD []).length ≤ widths[slot]?.getD 0) ↔
      List.Forall₂ (fun vars width => List.length vars ≤ width) fileVars widths := by
  rw [List.forall₂_iff_get, and_iff_right hlen.symm]
  constructor
  · intro h slot hslot hslot'
    have hroom := h slot (hperm.mem_iff.mpr (List.mem_range.mpr hslot))
    rwa [List.getElem?_eq_getElem hslot, List.getElem?_eq_getElem hslot'] at hroom
  · intro h slot hslot
    have hlt := List.mem_range.mp (hperm.mem_iff.mp hslot)
    have hroom := h slot hlt (hlen ▸ hlt)
    rwa [List.getElem?_eq_getElem hlt, List.getElem?_eq_getElem (hlen ▸ hlt)]

end Found

section Whole

variable {names : List String} {widths : List Nat} (hnodup : names.Nodup)
  (hlen : widths.length = names.length) {lines rest : List (Option (List Char))}
  {fileVars : List (List Nat)}

include hnodup hlen

/-- **A header that is accepted says what is read.** -/
theorem of_read_eq_ok (h : read names widths lines = .ok (fileVars, rest)) :
    SpelledBy names fileVars lines rest ∧
      List.Forall₂ (fun vars width => List.length vars ≤ width) fileVars widths ∧
      fileVars.flatten.Nodup := by
  unfold read at h
  obtain ⟨first, hfirst, h⟩ := ok_of_bind h
  obtain ⟨marked, hmark, h⟩ := ok_of_bind h
  rw [unmark_eq_ok_iff.mp hmark] at hfirst
  obtain ⟨text, hline, hmarked⟩ := exists_marked hfirst
  obtain ⟨slots, hslots, h⟩ := ok_of_bind h
  obtain ⟨hcount, h⟩ := ok_of_unless h
  obtain ⟨blocks, hblocks, h⟩ := ok_of_bind h
  obtain ⟨hvars, hrest⟩ := Prod.mk.inj (Except.ok.inj h)
  have hnone : (([] : FileSlots).map Prod.fst).Nodup := List.nodup_nil
  obtain ⟨_, rfl, hspells, hrooms, hkeys⟩ := (readSlots_eq_ok_iff hnodup hnone).mp hslots
  obtain ⟨⟨texts, behind, htexts, hall⟩, hfound, hdistinct⟩ :=
    (readBlocks_eq_ok_iff .nil).mp hblocks
  have hperm := perm_of_spellsSlot hspells hkeys ((not_not.mp hcount).trans hlen)
  obtain rfl : _ = slots := hfound
  rw [List.map_map] at hperm
  change (blocks.map Prod.fst).Perm _ at hperm
  obtain rfl : arranged names.length blocks = fileVars := hlen ▸ hvars
  have hsize : (arranged names.length blocks).length = names.length := length_arranged _ _
  have hblocksEq := eq_blocksOf hperm
  generalize arranged names.length blocks = fileVars at hsize hblocksEq
  generalize blocks.map Prod.fst = order at hperm hblocksEq
  subst hblocksEq
  rw [← hsize] at hperm
  rw [blocksOf, List.map_map, List.forall₂_map_right_iff] at hspells
  rw [blocksOf, List.forall₂_map_right_iff] at hall
  rw [blocksOf, List.map_map, List.forall_mem_map] at hrooms
  refine ⟨⟨text, words marked, order, texts, ?_, hsize ▸ hperm, hmarked, hspells, hall⟩,
    (forall_room_iff hperm (hlen.trans hsize.symm)).mp hrooms,
    (flatten_blocksOf hperm).nodup_iff.mp hdistinct⟩
  cases lines with
  | nil => cases hline
  | cons line lines =>
      obtain rfl := Option.some.inj hline
      obtain rfl : lines = texts.map some ++ behind := htexts
      rw [← hrest, blocksOf, List.map_map, List.length_map, List.drop_succ_cons, ← hall.length_eq,
        List.drop_left' (List.length_map _)]

/-- **What says so is read**, where every slot has room and no variable stands twice. -/
theorem SpelledBy.read_eq (h : SpelledBy names fileVars lines rest)
    (hroom : List.Forall₂ (fun vars width => List.length vars ≤ width) fileVars widths)
    (hdistinct : fileVars.flatten.Nodup) : read names widths lines = .ok (fileVars, rest) := by
  obtain ⟨first, fields, order, texts, rfl, hperm, hmarked, hspells, hall⟩ := h
  rw [← hroom.length_eq.trans hlen] at hperm
  obtain ⟨marked, hline, rfl⟩ := hmarked.lineText_eq
  have hslots : readSlots names widths [] (words marked) =
      .ok ((blocksOf fileVars order).map fun p => (p.1, p.2.length)) := by
    have hnone : (([] : FileSlots).map Prod.fst).Nodup := List.nodup_nil
    refine (readSlots_eq_ok_iff hnodup hnone).mpr ⟨_, rfl, forall₂_blocksOf hspells, ?_,
      nodup_blocksOf (hperm.nodup_iff.mpr List.nodup_range)⟩
    rw [blocksOf, List.map_map]
    exact List.forall_mem_map.mpr ((forall_room_iff hperm hroom.length_eq.symm).mpr hroom)
  have hblocks : readBlocks names ((blocksOf fileVars order).map fun p => (p.1, p.2.length)) []
      (texts.map some ++ rest) = .ok (blocksOf fileVars order) := by
    refine (readBlocks_eq_ok_iff .nil).mpr ⟨⟨texts, rest, rfl, ?_⟩, rfl, ?_⟩
    · rw [blocksOf, List.forall₂_map_right_iff]
      exact hall
    · exact (flatten_blocksOf hperm).nodup_iff.mpr hdistinct
  have hcount : (blocksOf fileVars order).length = widths.length := by
    rw [← hroom.length_eq, blocksOf, List.length_map, hperm.length_eq, List.length_range]
  unfold read
  refine bind_eq_ok hline (bind_eq_ok rfl (bind_eq_ok hslots (unless_eq_ok ?_
    (bind_eq_ok hblocks (congrArg Except.ok (Prod.ext ?_ ?_))))))
  · rw [List.length_map, not_not]
    exact hcount
  · rw [← hroom.length_eq]
    exact arranged_blocksOf hperm
  · have htexts : texts.length = (blocksOf fileVars order).length := by
      rw [hall.length_eq, blocksOf, List.length_map]
    rw [List.length_map, List.drop_succ_cons]
    exact List.drop_left' (by rw [List.length_map, htexts])

/-- **Where some slot has no room, it is refused as too wide.** -/
theorem SpelledBy.read_tooWide (h : SpelledBy names fileVars lines rest)
    (hsize : fileVars.length = names.length)
    (hnarrow : ¬ List.Forall₂ (fun vars width => List.length vars ≤ width) fileVars widths) :
    ∃ name saved available,
      read names widths lines = .error (.format (.tooWide name saved available)) := by
  obtain ⟨first, fields, order, texts, rfl, hperm, hmarked, hspells, _⟩ := h
  rw [← hsize] at hperm
  obtain ⟨marked, hline, rfl⟩ := hmarked.lineText_eq
  rw [← forall_room_iff hperm (hlen.trans hsize.symm)] at hnarrow
  have hwide : ∃ p ∈ (blocksOf fileVars order).map fun p => (p.1, p.2.length),
      widths[p.1]?.getD 0 < p.2 := by
    simp only [not_forall, Nat.not_le] at hnarrow
    obtain ⟨slot, hslot, hlt⟩ := hnarrow
    refine ⟨(slot, (fileVars[slot]?.getD []).length), ?_, hlt⟩
    rw [blocksOf, List.map_map]
    exact List.mem_map_of_mem hslot
  obtain ⟨name, saved, available, hslots⟩ : ∃ name saved available,
      readSlots names widths [] (words marked) = .error (.format (.tooWide name saved available)) :=
    readSlots_tooWide hnodup (forall₂_blocksOf hspells)
      (nodup_blocksOf (hperm.nodup_iff.mpr List.nodup_range)) hwide
  refine ⟨name, saved, available, ?_⟩
  unfold read
  show (lineText (some (some first)) >>= _) = _
  rw [hline]
  show (readSlots names widths [] (words marked) >>= _) = _
  rw [hslots]
  rfl

/-- **A header is accepted just when it says what is read**, every slot has room for its variables,
and no variable stands twice. -/
theorem read_eq_ok_iff : read names widths lines = .ok (fileVars, rest) ↔
    SpelledBy names fileVars lines rest ∧
      List.Forall₂ (fun vars width => List.length vars ≤ width) fileVars widths ∧
      fileVars.flatten.Nodup :=
  ⟨of_read_eq_ok hnodup hlen, fun ⟨h, hroom, hdistinct⟩ => h.read_eq hnodup hlen hroom hdistinct⟩

end Whole

end Factbase.Relation.Header
