import Factbase.Proofs.Text.Rendering
import Mathlib.Data.List.TakeWhile

/-!
# Cutting and joining

What is cut off a text, and what it was joined from.

* `cut?_eq_some_iff`: a text is cut at its first separator;
* `intercalate_pieces`, `pieces_intercalate`: **a text is its pieces with separators between them**,
  and pieces without separators are cut out of what they were joined to;
* `Padded`: a text with blanks around it; `padded_trim`, `Padded.trim_eq`: trimming takes these off.
-/

namespace Factbase.Text

variable {sep : Char} {cs : List Char}

/-! ## 1. Cutting once -/

theorem cut?_eq_some_iff {before after : List Char} :
    cut? sep cs = some (before, after) ↔ sep ∉ before ∧ cs = before ++ sep :: after := by
  refine ⟨fun h => ?_, fun ⟨hbefore, hcs⟩ => hcs ▸ cut?_append hbefore after⟩
  induction cs generalizing before with
  | nil => cases h
  | cons c cs ih =>
      rw [cut?] at h
      split at h
      · rename_i hc
        cases h
        exact ⟨List.not_mem_nil, by rw [hc]; rfl⟩
      · rename_i hc
        obtain ⟨⟨front, back⟩, hcut, heq⟩ := Option.map_eq_some_iff.mp h
        obtain ⟨rfl, rfl⟩ := Prod.mk.inj heq
        obtain ⟨hfront, rfl⟩ := ih hcut
        exact ⟨List.not_mem_cons_of_ne_of_not_mem (Ne.symm hc) hfront, rfl⟩

theorem cut?_eq_none_iff : cut? sep cs = none ↔ sep ∉ cs := by
  induction cs with
  | nil => exact iff_of_true rfl List.not_mem_nil
  | cons c cs ih =>
      rw [cut?, List.mem_cons, not_or, ← ih]
      by_cases hc : c = sep
      · rw [if_pos hc]
        exact iff_of_false (fun h => by cases h) fun h => h.1 hc.symm
      · rw [if_neg hc, Option.map_eq_none_iff]
        exact ⟨fun h => ⟨Ne.symm hc, h⟩, fun h => h.2⟩

/-! ## 2. Cutting everywhere -/

theorem pieces_of_not_mem : ∀ {cs : List Char}, sep ∉ cs → pieces sep cs = [cs]
  | [], _ => rfl
  | c :: cs, h => by
      rw [pieces, if_neg (Ne.symm (List.ne_of_not_mem_cons h)),
        pieces_of_not_mem (List.not_mem_of_not_mem_cons h)]
      rfl

theorem pieces_ne_nil (sep : Char) (cs : List Char) : pieces sep cs ≠ [] := by
  cases cs with
  | nil => exact List.cons_ne_nil _ _
  | cons c cs =>
      rw [pieces]
      split
      · exact List.cons_ne_nil _ _
      · cases pieces sep cs <;> exact List.cons_ne_nil _ _

/-- The last piece of a text ends as the text does. -/
theorem getLast?_pieces {suffix : List Char} (h : sep ∉ suffix) (cs : List Char) :
    ∃ front, (pieces sep (cs ++ suffix)).getLast? = some (front ++ suffix) := by
  induction cs with
  | nil => exact ⟨[], by rw [List.nil_append, pieces_of_not_mem h]; rfl⟩
  | cons c cs ih =>
      obtain ⟨front, hlast⟩ := ih
      obtain ⟨piece, more, hpieces⟩ := List.exists_cons_of_ne_nil (pieces_ne_nil sep (cs ++ suffix))
      rw [hpieces] at hlast
      rw [List.cons_append, pieces, hpieces]
      split
      · exact ⟨front, hlast⟩
      · cases more with
        | nil => exact ⟨c :: front, congrArg (some <| c :: ·) (Option.some.inj hlast)⟩
        | cons next more => exact ⟨front, hlast⟩

/-- A piece ends where the first separator stands. -/
theorem pieces_append (h : sep ∉ cs) (rest : List Char) :
    pieces sep (cs ++ sep :: rest) = cs :: pieces sep rest := by
  induction cs with
  | nil => exact if_pos rfl
  | cons c cs ih =>
      rw [List.cons_append, pieces, if_neg (Ne.symm (List.ne_of_not_mem_cons h)),
        ih (List.not_mem_of_not_mem_cons h)]
      rfl

/-- **A text is its pieces with separators between them.** -/
theorem intercalate_pieces (sep : Char) (cs : List Char) :
    [sep].intercalate (pieces sep cs) = cs := by
  induction cs with
  | nil => rfl
  | cons c cs ih =>
      obtain ⟨piece, more, hpieces⟩ := List.exists_cons_of_ne_nil (pieces_ne_nil sep cs)
      rw [pieces, hpieces]
      rw [hpieces] at ih
      split
      · rename_i hc
        rw [List.intercalate_cons_cons, ih, hc]
        rfl
      · rw [extendFirst]
        cases more with
        | nil =>
            rw [List.intercalate_singleton] at ih ⊢
            rw [ih]
        | cons next more =>
            rw [List.intercalate_cons_cons] at ih ⊢
            rw [← ih]
            rfl

/-- **Pieces that are joined are cut again.** -/
theorem pieces_intercalate : ∀ {items : List (List Char)}, items ≠ [] →
    (∀ item ∈ items, sep ∉ item) → pieces sep ([sep].intercalate items) = items
  | [], hne, _ => absurd rfl hne
  | [item], _, h => by
      rw [List.intercalate_singleton, pieces_of_not_mem (h item List.mem_cons_self)]
  | item :: next :: items, _, h => by
      obtain ⟨hitem, hrest⟩ := List.forall_mem_cons.mp h
      rw [List.intercalate_cons_cons, List.append_assoc, List.singleton_append,
        pieces_append hitem, pieces_intercalate (List.cons_ne_nil _ _) hrest]

/-! ## 3. Blanks around a text -/

/-- The text has blanks around it, if any. -/
def Padded (cs text : List Char) : Prop :=
  ∃ before after, (∀ c ∈ before, isBlank c = true) ∧ (∀ c ∈ after, isBlank c = true) ∧
    text = before ++ cs ++ after

theorem padded_self (cs : List Char) : Padded cs cs :=
  ⟨[], [], fun _ h => absurd h List.not_mem_nil, fun _ h => absurd h List.not_mem_nil,
    (List.append_nil cs).symm⟩

theorem padded_trim (text : List Char) : Padded (trim text) text := by
  refine ⟨text.takeWhile isBlank, ((text.dropWhile isBlank).reverse.takeWhile isBlank).reverse,
    List.all_eq_true.mp List.all_takeWhile,
    fun c hc => List.all_eq_true.mp List.all_takeWhile c (List.mem_reverse.mp hc), ?_⟩
  rw [trim, trimEnd, List.append_assoc, ← List.reverse_append,
    List.takeWhile_append_dropWhile, List.reverse_reverse, List.takeWhile_append_dropWhile]

/-- Blanks around a text do not count. -/
theorem Padded.trim_eq {text : List Char} (h : Padded cs text) : trim text = trim cs := by
  obtain ⟨before, after, hbefore, hafter, rfl⟩ := h
  rw [trim, trim, List.append_assoc, List.dropWhile_append_of_pos hbefore, List.dropWhile_append]
  split
  · rename_i hblank
    rw [List.isEmpty_iff.mp hblank, List.dropWhile_eq_nil_iff.mpr hafter]
  · rw [trimEnd, trimEnd, List.reverse_append, List.dropWhile_append_of_pos]
    exact fun c hc => hafter c (List.mem_reverse.mp hc)

/-- A character of a padded text is a blank or stands in the text. -/
theorem Padded.mem {text : List Char} (h : Padded cs text) {c : Char} (hc : c ∈ text) :
    isBlank c = true ∨ c ∈ cs := by
  obtain ⟨before, after, hbefore, hafter, rfl⟩ := h
  rcases List.mem_append.mp hc with hc | hc
  · exact (List.mem_append.mp hc).imp (hbefore c) id
  · exact .inl (hafter c hc)

end Factbase.Text
