import Factbase.Proofs.Domains
import Factbase.Proofs.Files
import Factbase.Proofs.Text.Numerals

/-!
# Domains in files

A domain of strings is written as a header and a line for each value, and read from both.

* `saveTexts_eq`: saving writes the texts up to the first that repeats;
* `saveTexts_eq_ok_iff`: **a domain is saved exactly where its texts differ and both files can be
  written**;
* `of_load`: what is loaded are lines that differ, as many as the header says;
* `load_values_iff`: **what is loaded are the lines, where none repeats and there are as
  many as the header says**;
* `load_saved_iff`: **a saved domain is loaded with the same values exactly where no value has a
  newline in it or a carriage return at its end.**
-/

namespace Factbase.Domain

open Text

/-! ## 1. Saving -/

/-- Nothing repeats exactly where all texts are new. -/
theorem distinctPart_snd_eq_none_iff : ∀ {texts : List String} {index : Nat}
    {seen : Std.HashMap String Nat}, (distinctPart index seen texts).2 = none ↔
      texts.Nodup ∧ ∀ text ∈ texts, seen[text]? = none
  | [], _, _ => by simp [distinctPart]
  | text :: texts, index, seen => by
      rw [distinctPart, List.nodup_cons, List.forall_mem_cons]
      cases hseen : seen[text]? with
      | some first => exact ⟨fun h => (by cases h), fun h => (by cases h.2.1)⟩
      | none =>
          have hinsert : ∀ other, (seen.insert text index)[other]? = none ↔
              text ≠ other ∧ seen[other]? = none := fun other => by
            rw [Std.HashMap.getElem?_insert]
            by_cases hsame : text = other
            · rw [if_pos (beq_iff_eq.mpr hsame)]
              exact ⟨fun h => (by cases h), fun h => absurd hsame h.1⟩
            · rw [if_neg (beq_iff_eq.not.mpr hsame)]
              exact ⟨fun h => ⟨hsame, h⟩, fun h => h.2⟩
          show (distinctPart (index + 1) (seen.insert text index) texts).2 = none ↔ _
          rw [distinctPart_snd_eq_none_iff]
          constructor
          · rintro ⟨hnodup, hfresh⟩
            exact ⟨⟨fun hmem => ((hinsert text).mp (hfresh text hmem)).1 rfl, hnodup⟩, rfl,
              fun other hmem => ((hinsert other).mp (hfresh other hmem)).2⟩
          · rintro ⟨⟨hnew, hnodup⟩, _, hfresh⟩
            exact ⟨hnodup, fun other hmem => (hinsert other).mpr
              ⟨fun hsame => hnew (hsame ▸ hmem), hfresh other hmem⟩⟩

/-- Where nothing repeats everything is written. -/
theorem distinctPart_fst : ∀ {texts : List String} {index : Nat} {seen : Std.HashMap String Nat},
    (distinctPart index seen texts).2 = none → (distinctPart index seen texts).1 = texts
  | [], _, _, _ => rfl
  | text :: texts, index, seen, h => by
      rw [distinctPart] at h ⊢
      cases hseen : seen[text]? with
      | some first => rw [hseen] at h; cases h
      | none =>
          rw [hseen] at h
          exact congrArg (text :: ·) (distinctPart_fst h)

/-- Behind no text nothing repeats exactly where the texts differ. -/
theorem distinctPart_eq_none_iff_nodup {texts : List String} :
    (distinctPart 0 ∅ texts).2 = none ↔ texts.Nodup := by
  rw [distinctPart_snd_eq_none_iff]
  exact and_iff_left fun text _ => Std.HashMap.getElem?_empty

theorem write_eq_ok_iff {path : Path} {text : String} {files files' : Files} :
    write path text files = .ok () files' ↔ files.writeText? path text = .ok files' := by
  rw [write]
  cases files.writeText? path text with
  | ok files₁ => exact ⟨fun h => (by cases h; rfl), fun h => (by cases h; rfl)⟩
  | error error => exact ⟨fun h => (by cases h), fun h => (by cases h)⟩

/-- **What saving does**: both files are written, the texts up to the first that repeats. -/
theorem saveTexts_eq {name : String} {texts : List String} {folder : Path}
    {files files₁ files₂ : Files}
    (hdom : files.writeText? (folder.join (domFile name)) (header name texts.length) = .ok files₁)
    (hmap : files₁.writeText? (folder.join (mapFile name)) (lines (distinctPart 0 ∅ texts).1) =
      .ok files₂) :
    saveTexts name texts folder true files = match (distinctPart 0 ∅ texts).2 with
      | none => .ok () files₂
      | some (first, second, text) =>
        .error (.duplicateCanonical name first second text) files₂ := by
  unfold saveTexts
  rw [if_pos rfl, bind_of_ok (write_eq_ok_iff.mpr hdom)]
  generalize distinctPart 0 ∅ texts = part at hmap ⊢
  obtain ⟨written, repeated⟩ := part
  dsimp only
  rw [bind_of_ok (write_eq_ok_iff.mpr hmap)]
  cases repeated <;> rfl

/-- **A domain is saved with its map exactly where its texts differ and both files can be
written.** -/
theorem saveTexts_eq_ok_iff {name : String} {texts : List String} {folder : Path}
    {files files' : Files} : saveTexts name texts folder true files = .ok () files' ↔
      texts.Nodup ∧ ∃ files₁,
        files.writeText? (folder.join (domFile name)) (header name texts.length) = .ok files₁ ∧
        files₁.writeText? (folder.join (mapFile name)) (lines texts) = .ok files' := by
  constructor
  · intro h
    obtain ⟨_, files₁, hfirst, hrest⟩ := run_ok_of_bind h
    obtain ⟨_, files₂, hsecond, _⟩ := run_ok_of_bind hrest
    have hfirst := write_eq_ok_iff.mp hfirst
    have hsecond := write_eq_ok_iff.mp hsecond
    rw [saveTexts_eq hfirst hsecond] at h
    split at h
    · rename_i hnone
      obtain ⟨_, rfl⟩ := EStateM.Result.ok.inj h
      rw [distinctPart_fst hnone] at hsecond
      exact ⟨distinctPart_eq_none_iff_nodup.mp hnone, files₁, hfirst, hsecond⟩
    · cases h
  · rintro ⟨hdistinct, files₁, hfirst, hsecond⟩
    have hnone := distinctPart_eq_none_iff_nodup.mpr hdistinct
    rw [saveTexts_eq hfirst (by rw [distinctPart_fst hnone]; exact hsecond), hnone]

/-! ## 2. Texts of the files -/

theorem toList_lines (texts : List String) :
    (lines texts).toList = unlines '\n' (texts.map String.toList) := by
  simp [lines, unlines, String.toList_join, List.flatMap_map]

/-- The lines of a map are its texts exactly where no text looks like more or less than one line. -/
theorem splitLines_lines_iff {texts : List String} :
    (splitLines (lines texts).toList).map String.ofList = texts ↔
      ∀ text ∈ texts, '\n' ∉ text.toList ∧ text.toList.getLast? ≠ some '\r' := by
  have hsplit : linesFrom '\n' '\r' [] (unlines '\n' (texts.map String.toList)) =
      texts.map String.toList ↔ _ := linesFrom_unlines_iff
  rw [List.forall_mem_map] at hsplit
  rw [toList_lines, splitLines, ← hsplit]
  constructor
  · intro h
    have hback := congrArg (List.map String.toList) h
    rwa [List.map_map, show String.toList ∘ String.ofList = id from
      funext fun _ => String.toList_ofList, List.map_id] at hback
  · intro h
    rw [h, List.map_map, show String.ofList ∘ String.toList = id from
      funext fun _ => String.ofList_toList, List.map_id]

/-- The header has three words. -/
theorem words_header {name : String} (hname : Word name.toList) (size : Nat) :
    words (header name size).toList =
      [name.toList, size.repr.toList, (mapFile name).toList] := by
  have hmap : Word (mapFile name).toList := by
    rw [mapFile, String.toList_append]
    have hending : Word ".map".toList := word_of_all (by decide) (by decide)
    exact ⟨List.append_ne_nil_of_left_ne_nil hname.nonempty _,
      List.forall_mem_append.mpr ⟨hname.solid, hending.solid⟩⟩
  have hheader : (header name size).toList = name.toList ++ ' ' :: (size.repr.toList ++
      ' ' :: ((mapFile name).toList ++ '\n' :: [])) := by
    simp [header]
    rfl
  rw [hheader, words_cons hname (by decide), words_cons (word_repr size) (by decide),
    words_cons hmap (by decide)]
  rfl

theorem readHeader_header {name : String} (hname : Word name.toList) {size : Nat}
    (hsize : size < twoPow 64) (path : Path) :
    readHeader name path (header name size) = .ok (size, mapFile name) := by
  have hread : readNat .word64 size.repr.toList = .ok size :=
    readNat_repr (Nat.le_sub_one_of_lt hsize)
  rw [readHeader, words_header hname]
  simp only [List.map_cons, List.map_nil, String.ofList_toList]
  refine unless_eq_ok (not_not.mpr rfl) ?_
  rw [hread]
  rfl

/-! ## 3. Loading -/

/-- Lines are numbered exactly where all are new. -/
theorem exists_numberLines_iff {path : Path} : ∀ {lines : List String} {n : Numbering String},
    n.Lawful → ((∃ m, numberLines path n lines = .ok m) ↔ (n.values.toList ++ lines).Nodup)
  | [], n, h => by
      rw [List.append_nil]
      exact iff_of_true ⟨n, rfl⟩ h.nodup
  | line :: lines, n, h => by
      rw [numberLines]
      by_cases hline : line ∈ n.values.toList
      · rw [if_pos (h.isSome_indexOf?_iff.mpr hline)]
        refine iff_of_false ?_ fun hnodup =>
          (List.nodup_append.mp hnodup).2.2 line hline line List.mem_cons_self rfl
        rintro ⟨_, h⟩
        cases h
      · have hnew := h.isSome_indexOf?_iff.not.mpr hline
        have hvalues : (n.push line).values.toList = n.values.toList ++ [line] := by
          simp [Numbering.push]
        rw [if_neg hnew, exists_numberLines_iff (h.push (Option.not_isSome_iff_eq_none.mp hnew)),
          hvalues, List.append_assoc, List.singleton_append]

/-- Lines that are numbered are the values. -/
theorem values_of_numberLines {path : Path} : ∀ {lines : List String} {n m : Numbering String},
    numberLines path n lines = .ok m → m.values.toList = n.values.toList ++ lines
  | [], n, m, h => by
      obtain rfl := Except.ok.inj h
      exact (List.append_nil _).symm
  | line :: lines, n, m, h => by
      rw [numberLines] at h
      split at h
      · cases h
      · rw [values_of_numberLines h]
        simp [Numbering.push]

/-- The header that was written for a size is read as this size or not at all, whatever the name
and the size are. -/
theorem of_readHeader_header {name map : String} {size size' : Nat} {path : Path}
    (h : readHeader name path (header name size) = .ok (size', map)) :
    size' = size ∧ map = mapFile name := by
  have hname : Word name.toList := by
    unfold readHeader at h
    split at h
    · rename_i found _ _ hfields
      obtain ⟨hfound, _⟩ := ok_of_unless h
      obtain rfl := not_not.mp hfound
      have hmem : found ∈ (words (header found size).toList).map String.ofList :=
        hfields ▸ List.mem_cons_self
      obtain ⟨word, hword, rfl⟩ := List.mem_map.mp hmem
      exact String.toList_ofList ▸ word_of_mem_words hword
    · cases h
  rw [readHeader, words_header hname] at h
  simp only [List.map_cons, List.map_nil, String.ofList_toList] at h
  obtain ⟨_, h⟩ := ok_of_unless h
  cases hread : readNat .word64 size.repr.toList with
  | error error => rw [hread] at h; cases h
  | ok n =>
      rw [hread] at h
      obtain ⟨rfl, rfl⟩ := Prod.mk.inj (Except.ok.inj h)
      exact ⟨(of_readNat_repr hread).1, rfl⟩

theorem readFile_eq {files : Files} {path : Path} {text : String}
    (h : files.readText? path = .ok text) : readFile files path = .ok text := by
  rw [readFile, h]
  rfl

section Loading

variable {files : Files} {folder : Path} {name text : String} {size : Nat}
  (hdom : files.readText? (folder.join (domFile name)) = .ok (header name size))
  (hmap : files.readText? (folder.join (mapFile name)) = .ok text)

include hdom hmap

/-- What is loaded are the lines, none of which repeats, and there are as many as the header
says. -/
theorem of_load {d : Domain String} (h : load files folder name = .ok d) :
    d.values = (splitLines text.toList).map String.ofList ∧ d.values.Nodup ∧
      d.values.length = size := by
  obtain ⟨_, hread, h⟩ := ok_of_bind h
  obtain rfl := Except.ok.inj ((readFile_eq hdom).symm.trans hread)
  obtain ⟨⟨_, _⟩, hheader, h⟩ := ok_of_bind h
  obtain ⟨rfl, rfl⟩ := of_readHeader_header hheader
  obtain ⟨_, hlines, h⟩ := ok_of_bind h
  obtain rfl := Except.ok.inj ((readFile_eq hmap).symm.trans hlines)
  obtain ⟨numbering, hnumbered, h⟩ := ok_of_bind h
  obtain ⟨hcount, h⟩ := ok_of_unless h
  obtain rfl := Except.ok.inj h
  have hvalues : numbering.values.toList = (splitLines text.toList).map String.ofList :=
    values_of_numberLines hnumbered
  have hnodup := (exists_numberLines_iff Numbering.lawful_empty).mp ⟨numbering, hnumbered⟩
  rw [← hvalues] at hnodup
  refine ⟨hvalues, hnodup, ?_⟩
  exact Array.length_toList.trans (not_not.mp hcount)

/-- **What is loaded are the lines**, where none repeats and there are as many as the header
says. -/
theorem load_values_iff (hname : Word name.toList) (hsize : size < twoPow 64)
    {values : List String} :
    (∃ d, load files folder name = .ok d ∧ d.name = name ∧ d.values = values) ↔
      (splitLines text.toList).map String.ofList = values ∧ values.Nodup ∧
        values.length = size := by
  constructor
  · rintro ⟨d, h, _, rfl⟩
    obtain ⟨hvalues, hrest⟩ := of_load hdom hmap h
    exact ⟨hvalues.symm, hrest⟩
  · rintro ⟨rfl, hnodup, hlength⟩
    obtain ⟨numbering, hnumbered⟩ : ∃ m, numberLines (folder.join (mapFile name)) {}
        ((splitLines text.toList).map String.ofList) = .ok m :=
      (exists_numberLines_iff Numbering.lawful_empty).mpr hnodup
    have hvalues : numbering.values.toList = (splitLines text.toList).map String.ofList :=
      values_of_numberLines hnumbered
    have hcount : numbering.size = size := by
      rw [Numbering.size, ← Array.length_toList, hvalues, hlength]
    have hheader := readHeader_header hname hsize (folder.join (domFile name))
    exact ⟨⟨name, id, numbering⟩, bind_eq_ok (readFile_eq hdom) (bind_eq_ok hheader
      (bind_eq_ok (readFile_eq hmap) (bind_eq_ok hnumbered
        (unless_eq_ok (not_not.mpr hcount) rfl)))), rfl, hvalues⟩

end Loading

/-! ## 4. Saving and loading -/

/-- **What was written to both files is found again.** -/
theorem readText?_of_writes {name text : String} {size : Nat} {folder : Path}
    {files files₁ files₂ : Files}
    (hdom : files.writeText? (folder.join (domFile name)) (header name size) = .ok files₁)
    (hmap : files₁.writeText? (folder.join (mapFile name)) text = .ok files₂) :
    files₂.readText? (folder.join (domFile name)) = .ok (header name size) ∧
      files₂.readText? (folder.join (mapFile name)) = .ok text := by
  obtain ⟨address, hfirst, _⟩ := ok_of_bind hdom
  obtain ⟨address', hsecond, _⟩ := ok_of_bind hmap
  have hne : address ≠ address' := by
    have hfirst' : files.locate (folder.join (name ++ ".dom")) = .ok address := hfirst
    have hsecond' : files₁.locate (folder.join (name ++ ".map")) = .ok address' := hsecond
    refine Files.address_ne ?_ ?_ ?_ ?_ (Files.locate_of_ok hfirst') hsecond' <;> decide
  have hkept := Files.read?_of_write?_of_ne (Files.locate_of_ok hfirst) hsecond hne hmap
  exact ⟨Files.readText?_eq (hkept.trans (Files.read?_of_write? hdom)),
    Files.readText?_eq (Files.read?_of_write? hmap)⟩

/-- What is saved is found again. -/
theorem readText?_of_save {name : String} {texts : List String} {folder : Path}
    {files files' : Files} (h : saveTexts name texts folder true files = .ok () files') :
    files'.readText? (folder.join (domFile name)) = .ok (header name texts.length) ∧
      files'.readText? (folder.join (mapFile name)) = .ok (lines texts) := by
  obtain ⟨_, _, hfirst, hsecond⟩ := saveTexts_eq_ok_iff.mp h
  exact readText?_of_writes hfirst hsecond

/-- Texts that differ are saved wherever the paths lead to files. -/
theorem exists_saved {name : String} {texts : List String} {folder : Path} {files : Files}
    {address address' : Address} (hdom : files.locate (folder.join (domFile name)) = .ok address)
    (hmap : files.locate (folder.join (mapFile name)) = .ok address') (hnodup : texts.Nodup) :
    ∃ files', saveTexts name texts folder true files = .ok () files' :=
  ⟨_, saveTexts_eq_ok_iff.mpr ⟨hnodup, _, bind_eq_ok hdom rfl,
    bind_eq_ok (Files.locate_of_ok hmap) rfl⟩⟩

/-- **A saved domain of strings is loaded with the same values exactly where no value has a newline
in it or a carriage return at its end.** -/
theorem load_saved_iff {d : Domain String} {folder : Path} {files files' : Files}
    (hcanon : ∀ v, d.canon v = v) (hname : Word d.name.toList) (hsize : d.size < twoPow 64)
    (hsave : d.save folder true files = .ok () files') :
    (∃ e, load files' folder d.name = .ok e ∧ e.name = d.name ∧ e.values = d.values) ↔
      ∀ v ∈ d.values, '\n' ∉ v.toList ∧ v.toList.getLast? ≠ some '\r' := by
  have htexts : d.values.map d.canon = d.values :=
    (List.map_congr_left fun v _ => hcanon v).trans (List.map_id _)
  rw [save, htexts] at hsave
  obtain ⟨hdom, hmap⟩ := readText?_of_save hsave
  obtain ⟨hnodup, _⟩ := saveTexts_eq_ok_iff.mp hsave
  have hlength : d.values.length = d.size := Array.length_toList
  rw [hlength] at hdom
  rw [load_values_iff hdom hmap hname hsize, and_iff_left ⟨hnodup, hlength⟩,
    splitLines_lines_iff]

/-- Both files of a domain have a place in the scratch folder. -/
theorem locate_scratch (files : Files) :
    files.locate ((Path.scratch "").join (domFile "M")) = .ok ⟨.scratch, "M.dom"⟩ ∧
      files.locate ((Path.scratch "").join (mapFile "M")) = .ok ⟨.scratch, "M.map"⟩ := by
  have hdom : Files.locate {} ((Path.scratch "").join (domFile "M")) =
      .ok ⟨.scratch, "M.dom"⟩ := by
    rw [Files.locate, String.contains_char_eq]
    rfl
  have hmap : Files.locate {} ((Path.scratch "").join (mapFile "M")) =
      .ok ⟨.scratch, "M.map"⟩ := by
    rw [Files.locate, String.contains_char_eq]
    rfl
  exact ⟨Files.locate_of_ok hdom, Files.locate_of_ok hmap⟩

theorem exists_saved_scratch {texts : List String} (hnodup : texts.Nodup) :
    ∃ files', saveTexts "M" texts (.scratch "") true {} = .ok () files' :=
  exists_saved (locate_scratch {}).1 (locate_scratch {}).2 hnodup

/-- Values that are empty or have a carriage return inside are kept. -/
theorem load_saved_iff_kept : ∃ (d : Domain String) (files' : Files),
    d.values = ["", "a\rb"] ∧ d.save (.scratch "") true {} = .ok () files' ∧
    ∃ e, load files' (.scratch "") d.name = .ok e ∧ e.values = d.values := by
  let d : Domain String := ⟨"M", id, (({} : Numbering String).push "").push "a\rb"⟩
  obtain ⟨files', hsave⟩ := exists_saved_scratch (show ["", "a\rb"].Nodup by decide)
  have hword : Word d.name.toList := word_of_all (by decide) (by decide)
  obtain ⟨e, hload, _, hvalues⟩ := (@load_saved_iff d _ _ _ (fun _ => rfl) hword (by decide)
    hsave).mpr (show ∀ v ∈ ["", "a\rb"], _ by decide)
  exact ⟨d, files', rfl, hsave, e, hload, hvalues⟩

/-- **A carriage return at the end of a value is lost** without an error. -/
theorem exists_cut_value : ∃ (d : Domain String) (files' : Files),
    d.values = ["a\r"] ∧ d.save (.scratch "") true {} = .ok () files' ∧
    ∃ e, load files' (.scratch "") d.name = .ok e ∧ e.values = ["a"] := by
  obtain ⟨files', hsave⟩ := exists_saved_scratch (show ["a\r"].Nodup by decide)
  obtain ⟨hdom, hmap⟩ := readText?_of_save hsave
  have hloaded : ∃ e, load files' (.scratch "") "M" = .ok e ∧ e.name = "M" ∧ e.values = ["a"] := by
    refine (load_values_iff hdom hmap (word_of_all (by decide) (by decide)) (by decide)).mpr
      ⟨?_, by decide, rfl⟩
    rw [toList_lines]
    rfl
  obtain ⟨e, hload, _, hvalues⟩ := hloaded
  exact ⟨⟨"M", id, ({} : Numbering String).push "a\r"⟩, files', rfl, hsave, e, hload, hvalues⟩

end Factbase.Domain
