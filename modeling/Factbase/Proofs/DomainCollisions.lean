import Factbase.Domain.Canon
import Factbase.Proofs.DomainFiles

/-!
# Values with one canonical text

Two values of a domain may have the same canonical text, and such a domain cannot be saved. What
stands in front of the second of them is in the map file nevertheless, behind a header for the
whole domain.

* `of_distinctPart`: where texts repeat, what is written are those in front of the first one that
  occurred before;
* `Collide`: the first two indices with one canonical text, of which there are no others
  (`Collide.unique`);
* `save_eq`: what saving answers and what it leaves in the files; `load_ne_ok_of_collide`: this is
  no domain where two values collide;
* `save_refused`: **a domain is refused exactly where two indices have one canonical text, the first
  two such indices are reported, and what is left of it is never loaded.**
-/

namespace Factbase.Domain

open Text

/-! ## 1. The first repetition -/

/-- **What is written are the texts in front of the first one that occurred before**, here behind
texts that are numbered. -/
theorem of_distinctPart {first second : Nat} {text : String} : ∀ {texts written : List String}
    {n : Numbering String}, n.Lawful →
      distinctPart n.size n.index texts = (written, some (first, second, text)) →
      (n.values.toList ++ written).Nodup ∧ (n.values.toList ++ written)[first]? = some text ∧
        second = (n.values.toList ++ written).length ∧ ∃ rest, texts = written ++ text :: rest
  | [], _, _, _, heq => by
      rw [distinctPart] at heq
      cases heq
  | line :: texts, written, n, h, heq => by
      rw [distinctPart] at heq
      cases hseen : n.index[line]? with
      | some i =>
          rw [hseen] at heq
          obtain ⟨rfl, hfound⟩ := Prod.mk.inj heq
          obtain ⟨rfl, rfl, rfl⟩ := Option.some.inj hfound
          have hplace := (h _ _).mp hseen
          rw [Numbering.get?, ← Array.getElem?_toList] at hplace
          rw [List.append_nil]
          exact ⟨h.nodup, hplace, Array.length_toList.symm, texts, rfl⟩
      | none =>
          rw [hseen] at heq
          obtain ⟨rfl, hrepeated⟩ := Prod.mk.inj heq
          have hpush : distinctPart (n.push line).size (n.push line).index texts =
              ((distinctPart (n.size + 1) (n.index.insert line n.size) texts).1,
                some (first, second, text)) := by
            rw [← hrepeated]
            exact congrArg (distinctPart · (n.index.insert line n.size) texts)
              (Array.size_push line)
          obtain ⟨hnodup, hplace, hsecond, rest, hrest⟩ := of_distinctPart (h.push hseen) hpush
          rw [Numbering.values_push, List.append_assoc, List.singleton_append]
            at hnodup hplace hsecond
          exact ⟨hnodup, hplace, hsecond, rest, congrArg (line :: ·) hrest⟩

/-! ## 2. Collisions -/

section Collisions

variable {α : Type} [BEq α] [Hashable α] {d : Domain α}

/-- The canonical texts in order. -/
theorem canonAt_eq_ok_iff {i : Nat} {text : String} :
    d.canonAt i = .ok text ↔ (d.values.map d.canon)[i]? = some text := by
  have hvalue : d.values[i]? = d.get? i := Array.getElem?_toList
  rw [canonAt, get, List.getElem?_map, hvalue]
  cases d.get? i with
  | some v =>
      exact ⟨fun h => congrArg some (Except.ok.inj h), fun h => congrArg _ (Option.some.inj h)⟩
  | none => exact ⟨fun h => (by cases h), fun h => (by cases h)⟩

/-- The values at both indices have one canonical text, and none in front of the second has that of
an earlier one. -/
structure Collide (d : Domain α) (first second : Nat) (text : String) : Prop where
  lt : first < second
  canon_first : d.canonAt first = .ok text
  canon_second : d.canonAt second = .ok text
  /-- No text that stands in front of the second occurred before. -/
  least : ∀ i j other, i < j → j < second → d.canonAt i = .ok other → d.canonAt j ≠ .ok other
  /-- The text of both stands once in front of the second. -/
  only : ∀ i, i < second → d.canonAt i = .ok text → i = first

theorem Collide.second_le {first second first' second' : Nat} {text text' : String}
    (h : d.Collide first second text) (h' : d.Collide first' second' text') : second' ≤ second :=
  Nat.le_of_not_lt fun hlt => h'.least first second text h.lt hlt h.canon_first h.canon_second

/-- **A domain has at most one such pair.** -/
theorem Collide.unique {first second first' second' : Nat} {text text' : String}
    (h : d.Collide first second text) (h' : d.Collide first' second' text') :
    first = first' ∧ second = second' ∧ text = text' := by
  obtain rfl : second = second' := Nat.le_antisymm (h'.second_le h) (h.second_le h')
  obtain rfl : text = text' := Except.ok.inj (h.canon_second.symm.trans h'.canon_second)
  exact ⟨h'.only first h.lt h.canon_first, rfl, rfl⟩

theorem collide_of_distinctPart {written : List String} {first second : Nat} {text : String}
    (h : distinctPart 0 ∅ (d.values.map d.canon) = (written, some (first, second, text))) :
    d.Collide first second text ∧ written = (d.values.map d.canon).take second := by
  obtain ⟨hnodup, hplace, hsecond, rest, htexts⟩ :=
    of_distinctPart (n := {}) Numbering.lawful_empty h
  rw [show ({} : Numbering String).values.toList ++ written = written from rfl]
    at hnodup hplace hsecond
  subst hsecond
  have hfirst : first < written.length := (List.getElem?_eq_some_iff.mp hplace).1
  have hbefore : ∀ i other, i < written.length →
      (d.canonAt i = .ok other ↔ written[i]? = some other) := fun i other hi => by
    rw [canonAt_eq_ok_iff, htexts, List.getElem?_append_left hi]
  have hinj : ∀ i j other, i < written.length → j < written.length →
      d.canonAt i = .ok other → d.canonAt j = .ok other → i = j := fun i j other hi hj h h' => by
    have hsame := ((hbefore i other hi).mp h).trans ((hbefore j other hj).mp h').symm
    exact (List.getElem?_inj hi hnodup).mp hsame
  have hcanon := (hbefore first text hfirst).mpr hplace
  refine ⟨⟨hfirst, hcanon, ?_, fun i j other hlt hj h h' => ?_, fun i hi h => ?_⟩, ?_⟩
  · rw [canonAt_eq_ok_iff, htexts, List.getElem?_append_right (Nat.le_refl _), Nat.sub_self]
    rfl
  · exact Nat.ne_of_lt hlt (hinj i j other (Nat.lt_trans hlt hj) hj h h')
  · exact hinj i first text hi hfirst h hcanon
  · rw [htexts, List.take_left]

/-! ## 3. Refused domains -/

variable {folder : Path} {files : Files}

/-- The files of a domain with a collision are not those of any domain: the map has fewer lines than
the header says. -/
theorem load_ne_ok_of_collide {text : String} {first second : Nat}
    (hcollide : d.Collide first second text) (hline : ∀ v ∈ d.values, '\n' ∉ (d.canon v).toList)
    (hdom : files.readText? (folder.join (domFile d.name)) = .ok (header d.name d.size))
    (hmap : files.readText? (folder.join (mapFile d.name)) =
      .ok (lines ((d.values.map d.canon).take second))) (e : Domain String) :
    load files folder d.name ≠ .ok e := by
  intro hload
  obtain ⟨hvalues, _, hcount⟩ := of_load hdom hmap hload
  have hsecond : second < d.size := by
    have hlt := (List.getElem?_eq_some_iff.mp (canonAt_eq_ok_iff.mp hcollide.canon_second)).1
    rwa [List.length_map, show d.values.length = d.size from Array.length_toList] at hlt
  have hflat : '\n' ∉ (((d.values.map d.canon).take second).map String.toList).flatten := by
    rw [List.mem_flatten]
    rintro ⟨line, hmem, hnewline⟩
    obtain ⟨text, htext, rfl⟩ := List.mem_map.mp hmem
    obtain ⟨v, hv, rfl⟩ := List.mem_map.mp (List.mem_of_mem_take htext)
    exact hline v hv hnewline
  have hlines : e.values.length = second := by
    rw [hvalues, List.length_map, toList_lines, splitLines, length_linesFrom_unlines,
      List.count_eq_zero.mpr hflat, Nat.add_zero, List.length_map, List.length_take,
      List.length_map]
    exact Nat.min_eq_left (Nat.le_of_lt hsecond)
  exact Nat.ne_of_lt hsecond (hlines.symm.trans hcount)

variable {address address' : Address}
  (hdom : files.locate (folder.join (domFile d.name)) = .ok address)
  (hmap : files.locate (folder.join (mapFile d.name)) = .ok address')

include hdom hmap

/-- What saving answers and what it leaves: a header for all values and a map of those in front of
the first repetition. -/
theorem save_eq : ∃ files',
    files'.readText? (folder.join (domFile d.name)) = .ok (header d.name d.size) ∧
    files'.readText? (folder.join (mapFile d.name)) =
      .ok (lines (distinctPart 0 ∅ (d.values.map d.canon)).1) ∧
    d.save folder true files = match (distinctPart 0 ∅ (d.values.map d.canon)).2 with
      | none => .ok () files'
      | some (first, second, text) =>
        .error (.duplicateCanonical d.name first second text) files' := by
  have hsize : (d.values.map d.canon).length = d.size :=
    (List.length_map _).trans Array.length_toList
  obtain ⟨files₁, hfirst⟩ : ∃ files₁, files.writeText? (folder.join (domFile d.name))
      (header d.name (d.values.map d.canon).length) = .ok files₁ := ⟨_, bind_eq_ok hdom rfl⟩
  obtain ⟨files₂, hsecond⟩ : ∃ files₂, files₁.writeText? (folder.join (mapFile d.name))
      (lines (distinctPart 0 ∅ (d.values.map d.canon)).1) = .ok files₂ :=
    ⟨_, bind_eq_ok (Files.locate_of_ok hmap) rfl⟩
  obtain ⟨hheader, hlines⟩ := readText?_of_writes hfirst hsecond
  exact ⟨files₂, hsize ▸ hheader, hlines, saveTexts_eq hfirst hsecond⟩

/-- **A domain is refused exactly where two indices have one canonical text**, whatever the files
were that are written. The error names the smallest index whose text occurred before and the only
index where it did, and **what is left of the domain is never loaded.** -/
theorem save_refused (hline : ∀ v ∈ d.values, '\n' ∉ (d.canon v).toList) :
    ((∃ name first second text files', d.save folder true files =
        .error (.duplicateCanonical name first second text) files') ↔
      ∃ i j text, i ≠ j ∧ d.canonAt i = .ok text ∧ d.canonAt j = .ok text) ∧
    ∀ name first second text files', d.save folder true files =
        .error (.duplicateCanonical name first second text) files' →
      name = d.name ∧ d.Collide first second text ∧ ∀ e, load files' folder d.name ≠ .ok e := by
  obtain ⟨files₂, hheader, hlines, hsave⟩ := save_eq hdom hmap
  cases hpart : distinctPart 0 ∅ (d.values.map d.canon) with
  | mk written repeated =>
    rw [hpart] at hlines hsave
    cases repeated with
    | none =>
        have hstops : ∀ error files', d.save folder true files ≠ .error error files' := by
          rw [hsave]
          exact fun _ _ h => by cases h
        refine ⟨iff_of_false ?_ ?_, fun _ _ _ _ _ h => absurd h (hstops _ _)⟩
        · rintro ⟨_, _, _, _, _, h⟩
          exact hstops _ _ h
        · rintro ⟨i, j, text, hne, hi, hj⟩
          rw [canonAt_eq_ok_iff] at hi hj
          have hdistinct : (d.values.map d.canon).Nodup :=
            distinctPart_eq_none_iff_nodup.mp (congrArg Prod.snd hpart)
          have hlt := (List.getElem?_eq_some_iff.mp hi).1
          exact hne ((List.getElem?_inj hlt hdistinct).mp (hi.trans hj.symm))
    | some found =>
        obtain ⟨first, second, text⟩ := found
        obtain ⟨hcollide, rfl⟩ := collide_of_distinctPart hpart
        refine ⟨iff_of_true ⟨_, _, _, _, _, hsave⟩ ⟨first, second, text, Nat.ne_of_lt hcollide.lt,
          hcollide.canon_first, hcollide.canon_second⟩, fun _ _ _ _ files' h => ?_⟩
        obtain ⟨herror, rfl⟩ := EStateM.Result.error.inj (hsave.symm.trans h)
        obtain ⟨rfl, rfl, rfl, rfl⟩ := DomainError.duplicateCanonical.inj herror
        exact ⟨rfl, hcollide, load_ne_ok_of_collide hcollide hline hheader hlines⟩

end Collisions

/-- Values that differ in their case only are refused, over the files of an earlier domain. -/
theorem save_refused_lower : ∃ (d : Domain String) (files files' : Files) (e : Domain String),
    load files (.scratch "") d.name = .ok e ∧ e.values = ["a", "b", "c", "d"] ∧
    d.values = ["Init", "main", "init", "Main"] ∧ d.save (.scratch "") true files =
      .error (.duplicateCanonical "M" 0 2 "init") files' ∧
    ∀ e, load files' (.scratch "") d.name ≠ .ok e := by
  let d : Domain String := ⟨"M", Canon.lower.ofString,
    (((({} : Numbering String).push "Init").push "main").push "init").push "Main"⟩
  have hcanon : ∀ i text, d.canonAt i = .ok text ↔
      ["init", "main", "init", "main"][i]? = some text := fun i text => by
    rw [canonAt_eq_ok_iff, show d.values.map d.canon = ["init", "main", "init", "main"] by decide]
  have hpair : d.Collide 0 2 "init" := by
    refine ⟨by decide, (hcanon _ _).mpr rfl, (hcanon _ _).mpr rfl, fun i j other hlt hj => ?_,
      fun i hi => ?_⟩
    · obtain ⟨rfl, rfl⟩ : i = 0 ∧ j = 1 := by omega
      rw [hcanon, ne_eq, hcanon]
      rintro ⟨⟩
      decide
    · obtain rfl | rfl : i = 0 ∨ i = 1 := by omega
      · exact fun _ => rfl
      · exact fun h => absurd ((hcanon _ _).mp h) (by decide)
  obtain ⟨files, hsaved⟩ := exists_saved_scratch (show ["a", "b", "c", "d"].Nodup by decide)
  obtain ⟨hdom, hmap⟩ := readText?_of_save hsaved
  obtain ⟨e, hload, _, hvalues⟩ := (load_values_iff hdom hmap
    (word_of_all (by decide) (by decide)) (by decide)).mpr
    ⟨by rw [toList_lines]; rfl, by decide, rfl⟩
  obtain ⟨hrefused, hleft⟩ := save_refused (d := d) (locate_scratch files).1
    (locate_scratch files).2 (by decide)
  obtain ⟨name, first, second, text, files', hsave⟩ :=
    hrefused.mpr ⟨0, 2, "init", by decide, hpair.canon_first, hpair.canon_second⟩
  obtain ⟨rfl, hcollide, hnever⟩ := hleft name first second text files' hsave
  obtain ⟨rfl, rfl, rfl⟩ := hpair.unique hcollide
  exact ⟨d, files, files', e, hload, hvalues, rfl, hsave, hnever⟩

end Factbase.Domain
