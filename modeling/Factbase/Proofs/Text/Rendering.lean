import Factbase.Text.Blank
import Factbase.Text.Cut
import Factbase.Text.Lines
import Factbase.Text.Numeral
import Mathlib.Data.List.Basic

/-!
# Reading back what was written

Numerals, words and lines that a program writes are read as what they were written for.

* `readInt_repr`, `readInt_toString`: **a number that is in range is read from its decimal text**;
* `exists_of_prefix_toString`: what is left of a number that is cut off;
* `Word`: a text that is not empty and has no blanks; decimal texts are such (`word_repr`);
* `words_spaced`: **words with blanks between them are read as these words**;
* `Unbroken`: a text without line ends; `linesFrom_unlines_append`: **lines that are written one
  behind another are read as these lines**; `linesFrom_unlines_iff`: which texts can be written so;
* `exists_of_prefix_unlines`: what is left of lines that are cut off.
-/

namespace Factbase.Text

/-! ## 1. Numerals -/

theorem digit?_of_isDigit {c : Char} (h : c.isDigit = true) :
    digit? c = some (c.toNat - '0'.toNat) := by
  simp only [Char.isDigit, Bool.and_eq_true, decide_eq_true_eq] at h
  exact if_pos h

/-- Digits that follow make a number no smaller. -/
theorem le_ofDigitChars (cs : List Char) (value : Nat) : value ≤ Nat.ofDigitChars 10 cs value := by
  induction cs generalizing value with
  | nil => exact Nat.le_of_eq Nat.ofDigitChars_nil.symm
  | cons c cs ih =>
      rw [Nat.ofDigitChars_cons]
      have := ih (10 * value + (c.toNat - '0'.toNat))
      omega

/-- Digits of a number that is in range are read. -/
theorem readDigits_eq {most : Nat} {beyond : NumeralError} {cs : List Char} {value : Nat}
    (hdigits : ∀ c ∈ cs, c.isDigit = true) (hmost : Nat.ofDigitChars 10 cs value ≤ most) :
    readDigits most beyond value cs = .ok (Nat.ofDigitChars 10 cs value) := by
  induction cs generalizing value with
  | nil => rw [Nat.ofDigitChars_nil]; rfl
  | cons c cs ih =>
      rw [Nat.ofDigitChars_cons, Nat.mul_comm] at hmost ⊢
      have hle := le_ofDigitChars cs (value * 10 + (c.toNat - '0'.toNat))
      rw [readDigits, digit?_of_isDigit (hdigits c List.mem_cons_self)]
      dsimp only
      rw [if_neg (by omega)]
      exact ih (fun d hd => hdigits d (List.mem_cons_of_mem _ hd)) hmost

theorem isDigit_of_mem_repr {n : Nat} {c : Char} (h : c ∈ n.repr.toList) : c.isDigit = true := by
  rw [Nat.toList_repr] at h
  exact Nat.isDigit_of_mem_toDigits (by decide) (by decide) h

theorem repr_ne_nil (n : Nat) : n.repr.toList ≠ [] := by
  rw [Nat.toList_repr]
  exact Nat.toDigits_ne_nil

theorem readUnsigned_repr {most n : Nat} (beyond : NumeralError) (h : n ≤ most) :
    readUnsigned most beyond n.repr.toList = .ok n := by
  have hvalue : Nat.ofDigitChars 10 n.repr.toList 0 = n := by
    rw [Nat.toList_repr, Nat.ofDigitChars_ten_toDigits]
  rw [readUnsigned, if_neg (by rw [List.isEmpty_iff]; exact repr_ne_nil n),
    readDigits_eq (fun c => isDigit_of_mem_repr) (by rwa [hvalue]), hvalue]

/-- **A natural number in range is read from its decimal text.** -/
theorem readInt_repr {range : NumeralRange} {n : Nat} (h : n ≤ range.most) :
    readInt range n.repr.toList = .ok n := by
  have hdigits : ∀ c ∈ n.repr.toList, c.isDigit = true := fun c => isDigit_of_mem_repr
  have hread := readUnsigned_repr .tooLarge h
  revert hdigits hread
  generalize n.repr.toList = cs
  intro hdigits hread
  unfold readInt
  split
  · cases hread
  · exact absurd (hdigits '+' List.mem_cons_self) (by decide)
  · exact absurd (hdigits '-' List.mem_cons_self) (by decide)
  · rw [hread]
    rfl

theorem readNat_repr {range : NumeralRange} {n : Nat} (h : n ≤ range.most) :
    readNat range n.repr.toList = .ok n := by
  rw [readNat, readInt_repr h]
  rfl

/-- The text of a negative number is that of its size behind a sign. -/
theorem toList_toString_negSucc (n : Nat) :
    (toString (Int.negSucc n)).toList = '-' :: (n + 1).repr.toList := by
  rw [Int.toString_eq_repr, show (Int.negSucc n).repr = "-" ++ (n + 1).repr from rfl,
    String.toList_append]
  rfl

/-- **A whole number in range is read from its decimal text.** -/
theorem readInt_toString {range : NumeralRange} {least : Nat} (hleast : range.least = some least)
    {i : Int} (hlow : -(least : Int) ≤ i) (hhigh : i ≤ range.most) :
    readInt range (toString i).toList = .ok i := by
  cases i with
  | ofNat n => exact readInt_repr (Int.ofNat_le.mp hhigh)
  | negSucc n =>
      have hread := readUnsigned_repr .tooSmall (show n + 1 ≤ least by omega)
      rw [toList_toString_negSucc]
      unfold readInt
      rw [hleast]
      show (readUnsigned least .tooSmall (n + 1).repr.toList >>= fun k => pure (-(k : Int))) = _
      rw [hread]
      rfl

/-- Different numbers have different texts. -/
theorem toList_toString_inj {i j : Int} (h : (toString i).toList = (toString j).toList) :
    i = j := by
  -- both numbers are read back, as the range may be as wide as they need
  have hread : ∀ k : Int, k.natAbs ≤ i.natAbs + j.natAbs →
      readInt ⟨i.natAbs + j.natAbs, some (i.natAbs + j.natAbs)⟩ (toString k).toList = .ok k :=
    fun k hk => readInt_toString rfl (by omega)
      (show k ≤ ((i.natAbs + j.natAbs : Nat) : Int) by omega)
  have hi := hread i (by omega)
  have hj := hread j (by omega)
  rw [h] at hi
  exact Except.ok.inj (hi.symm.trans hj)

/-- **What the digits of a number start with** is the number itself or a smaller one. -/
theorem exists_of_prefix_repr {n : Nat} {part : List Char} (h : part <+: n.repr.toList)
    (hne : part ≠ []) : ∃ k : Nat, part = k.repr.toList ∧ (k = n ∨ 0 < k ∧ 10 * k ≤ n) := by
  induction n using Nat.strongRecOn with
  | ind n ih =>
      by_cases hsame : part = n.repr.toList
      · exact ⟨n, hsame, .inl rfl⟩
      rw [Nat.toList_repr] at h hsame
      rcases Nat.lt_or_ge n 10 with hlt | hge
      · -- a single digit has no start but itself
        rw [Nat.toDigits_of_lt_base hlt] at h hsame
        rcases List.prefix_cons_iff.mp h with hnil | ⟨rest, hrest, hprefix⟩
        · exact absurd hnil hne
        · rw [hrest, List.prefix_nil.mp hprefix] at hsame
          exact absurd rfl hsame
      · rw [Nat.toDigits_of_base_le (by decide) hge] at h hsame
        rcases List.prefix_concat_iff.mp h with hwhole | hfirst
        · exact absurd hwhole hsame
        · rw [← Nat.toList_repr] at hfirst
          obtain ⟨k, hk, hless⟩ := ih (n / 10) (by omega) hfirst
          exact ⟨k, hk, .inr (by omega)⟩

/-- What the text of a whole number starts with is its sign or the number of the same sign that the
digits say. -/
theorem exists_of_prefix_toString {i : Int} {part : List Char} (h : part <+: (toString i).toList)
    (hne : part ≠ []) : part = ['-'] ∨ ∃ j : Int, part = (toString j).toList ∧
      (j = i ∨ 0 < j.natAbs ∧ 10 * j.natAbs ≤ i.natAbs) := by
  cases i with
  | ofNat n =>
      obtain ⟨k, hk, hless⟩ := exists_of_prefix_repr h hne
      refine .inr ⟨(k : Int), by rw [hk]; rfl, hless.imp (congrArg _) fun hlt => ?_⟩
      exact hlt
  | negSucc n =>
      rw [toList_toString_negSucc] at h
      rcases List.prefix_cons_iff.mp h with hnil | ⟨rest, rfl, hrest⟩
      · exact absurd hnil hne
      by_cases hdigits : rest = []
      · exact .inl (by rw [hdigits])
      · obtain ⟨k, hk, hless⟩ := exists_of_prefix_repr hrest hdigits
        obtain ⟨k, rfl⟩ : ∃ d, k = d + 1 := ⟨k - 1, by omega⟩
        refine .inr ⟨Int.negSucc k, ?_, ?_⟩
        · rw [toList_toString_negSucc, hk]
        · rw [Int.natAbs_negSucc, Int.natAbs_negSucc]
          exact hless.imp (fun h => by rw [Nat.succ.inj h]) id

/-! ## 2. Words -/

/-- A text that is not empty and has no blanks. -/
structure Word (cs : List Char) : Prop where
  nonempty : cs ≠ []
  solid : ∀ c ∈ cs, isBlank c = false

theorem word_of_all {cs : List Char} (hne : cs ≠ []) (h : cs.all (!isBlank ·) = true) : Word cs :=
  ⟨hne, fun c hc => by simpa using List.all_eq_true.mp h c hc⟩

theorem Word.append {cs cs' : List Char} (h : Word cs) (h' : Word cs') : Word (cs ++ cs') :=
  ⟨List.append_ne_nil_of_left_ne_nil h.nonempty _, fun c hc =>
    (List.mem_append.mp hc).elim (h.solid c) (h'.solid c)⟩

/-- Texts with a blank between any two of them. -/
def spaced (fields : List (List Char)) : List Char := [' '].intercalate fields

theorem spaced_singleton (cs : List Char) : spaced [cs] = cs := List.intercalate_singleton

theorem spaced_cons_cons (cs cs' : List Char) (fields : List (List Char)) :
    spaced (cs :: cs' :: fields) = cs ++ ' ' :: spaced (cs' :: fields) := by
  rw [spaced, List.intercalate_cons_cons, List.append_assoc]
  rfl

theorem spaced_cons (cs : List Char) (fields : List (List Char)) :
    spaced (cs :: fields) = cs ++ fields.flatMap (' ' :: ·) := by
  induction fields generalizing cs with
  | nil => rw [spaced_singleton, List.flatMap_nil, List.append_nil]
  | cons cs' fields ih => rw [spaced_cons_cons, ih, List.flatMap_cons, List.cons_append]

theorem isBlank_of_isDigit {c : Char} (h : c.isDigit = true) : isBlank c = false := by
  simp only [Char.isDigit, Bool.and_eq_true, decide_eq_true_eq, ge_iff_le,
    UInt32.le_iff_toNat_le] at h
  have hlow : 48 ≤ c.toNat := h.1
  have hhigh : c.toNat ≤ 57 := h.2
  simp only [isBlank, Bool.or_eq_false_iff, Bool.and_eq_false_iff, decide_eq_false_iff_not]
  omega

theorem word_repr (n : Nat) : Word n.repr.toList :=
  ⟨repr_ne_nil n, fun _ hc => isBlank_of_isDigit (isDigit_of_mem_repr hc)⟩

theorem word_toString (i : Int) : Word (toString i).toList := by
  cases i with
  | ofNat n => exact word_repr n
  | negSucc n =>
      rw [toList_toString_negSucc]
      exact ⟨List.cons_ne_nil _ _, List.forall_mem_cons.mpr ⟨by decide, (word_repr (n + 1)).solid⟩⟩

theorem wordsFrom_cons (word cs : List Char) (c : Char) :
    wordsFrom word (c :: cs) =
      if isBlank c then if word.isEmpty then wordsFrom [] cs else word.reverse :: wordsFrom [] cs
      else wordsFrom (c :: word) cs := by
  cases word <;> rfl

/-- The letters of a word are collected. -/
theorem wordsFrom_append {cs : List Char} (h : ∀ c ∈ cs, isBlank c = false)
    (word rest : List Char) :
    wordsFrom word (cs ++ rest) = wordsFrom (cs.reverse ++ word) rest := by
  induction cs generalizing word with
  | nil => rfl
  | cons c cs ih =>
      rw [List.cons_append, wordsFrom_cons, if_neg (by simp [h c List.mem_cons_self]),
        ih fun d hd => h d (List.mem_cons_of_mem _ hd), List.reverse_cons, List.append_assoc]
      rfl

/-- What is collected up to a blank is a word. -/
theorem word_of_mem_wordsFrom : ∀ {cs word : List Char}, (∀ c ∈ word, isBlank c = false) →
    ∀ found ∈ wordsFrom word cs, Word found
  | [], [], _, _, h => absurd h List.not_mem_nil
  | [], c :: word, hword, found, h => by
      rw [List.mem_singleton.mp h]
      exact ⟨List.reverse_ne_nil_iff.mpr (List.cons_ne_nil _ _),
        fun d hd => hword d (List.mem_reverse.mp hd)⟩
  | c :: cs, word, hword, found, h => by
      have hrest : ∀ other ∈ wordsFrom [] cs, Word other :=
        word_of_mem_wordsFrom fun _ h => absurd h List.not_mem_nil
      rw [wordsFrom_cons] at h
      split at h
      · split at h
        · exact hrest found h
        · rename_i hempty
          rcases List.mem_cons.mp h with rfl | h
          · exact ⟨List.reverse_ne_nil_iff.mpr fun hnil => hempty (List.isEmpty_iff.mpr hnil),
              fun d hd => hword d (List.mem_reverse.mp hd)⟩
          · exact hrest found h
      · rename_i hc
        exact word_of_mem_wordsFrom
          (List.forall_mem_cons.mpr ⟨Bool.eq_false_iff.mpr hc, hword⟩) found h

theorem word_of_mem_words {cs word : List Char} (h : word ∈ words cs) : Word word :=
  word_of_mem_wordsFrom (fun _ h => absurd h List.not_mem_nil) word h

theorem words_of_word {cs : List Char} (h : Word cs) : words cs = [cs] := by
  have hcollect := wordsFrom_append h.solid [] []
  rw [List.append_nil, List.append_nil] at hcollect
  have hne : cs.reverse ≠ [] := fun e => h.nonempty (List.reverse_eq_nil_iff.mp e)
  rw [words, hcollect]
  unfold wordsFrom
  split
  · exact absurd (by assumption) hne
  · rw [List.reverse_reverse]
  · contradiction

/-- Behind a word and a blank the other words follow. -/
theorem words_cons {cs : List Char} (h : Word cs) {c : Char} (hc : isBlank c = true)
    (rest : List Char) : words (cs ++ c :: rest) = cs :: words rest := by
  rw [words, wordsFrom_append h.solid, List.append_nil, wordsFrom_cons, if_pos hc, if_neg,
    List.reverse_reverse]
  · rfl
  · rw [List.isEmpty_iff, List.reverse_eq_nil_iff]
    exact h.nonempty

/-- **Words with blanks between them are read as these words.** -/
theorem words_spaced : ∀ {fields : List (List Char)}, (∀ cs ∈ fields, Word cs) →
    words (spaced fields) = fields
  | [], _ => rfl
  | [cs], h => by
      rw [spaced_singleton]
      exact words_of_word (h cs List.mem_cons_self)
  | cs :: cs' :: fields, h => by
      rw [spaced_cons_cons, words_cons (h cs List.mem_cons_self) (by decide),
        words_spaced fun ds hds => h ds (List.mem_cons_of_mem _ hds)]

/-- What stands in joined texts is a separator or stands in one of them. -/
theorem mem_intercalate {sep : Char} : ∀ {items : List (List Char)} {c : Char},
    c ∈ [sep].intercalate items → c = sep ∨ ∃ item ∈ items, c ∈ item
  | [], _, h => absurd h List.not_mem_nil
  | [item], _, h => by
      rw [List.intercalate_singleton] at h
      exact Or.inr ⟨item, List.mem_cons_self, h⟩
  | item :: next :: items, c, h => by
      rw [List.intercalate_cons_cons, List.append_assoc, List.mem_append, List.singleton_append,
        List.mem_cons] at h
      rcases h with h | h | h
      · exact Or.inr ⟨item, List.mem_cons_self, h⟩
      · exact Or.inl h
      · exact (mem_intercalate h).imp id fun ⟨other, hother, hc⟩ =>
          ⟨other, List.mem_cons_of_mem _ hother, hc⟩

theorem mem_spaced {fields : List (List Char)} {c : Char} (h : c ∈ spaced fields) :
    c = ' ' ∨ ∃ cs ∈ fields, c ∈ cs :=
  mem_intercalate h

/-- A blank in front of words does not count. -/
theorem words_blank {c : Char} (hc : isBlank c = true) (cs : List Char) :
    words (c :: cs) = words cs := by
  rw [words, wordsFrom_cons, if_pos hc]
  rfl

/-- Nor do blanks behind them. -/
theorem wordsFrom_append_blanks {blanks : List Char} (h : ∀ c ∈ blanks, isBlank c = true) :
    ∀ word cs : List Char, wordsFrom word (cs ++ blanks) = wordsFrom word cs
  | word, c :: cs => by
      rw [List.cons_append, wordsFrom_cons, wordsFrom_cons, wordsFrom_append_blanks h,
        wordsFrom_append_blanks h]
  | word, [] => by
      rw [List.nil_append]
      induction blanks generalizing word with
      | nil => rfl
      | cons c blanks ih =>
          obtain ⟨hc, hblanks⟩ := List.forall_mem_cons.mp h
          rw [wordsFrom_cons, if_pos hc, ih hblanks]
          cases word <;> rfl

/-- What is dropped behind a text are blanks. -/
theorem exists_blanks_trimEnd (cs : List Char) :
    ∃ blanks, (∀ c ∈ blanks, isBlank c = true) ∧ cs = trimEnd cs ++ blanks := by
  refine ⟨(cs.reverse.takeWhile isBlank).reverse, fun c hc =>
    List.all_eq_true.mp List.all_takeWhile c (List.mem_reverse.mp hc), ?_⟩
  rw [trimEnd, ← List.reverse_append, List.takeWhile_append_dropWhile, List.reverse_reverse]

theorem words_trimEnd (cs : List Char) : words (trimEnd cs) = words cs := by
  obtain ⟨blanks, hblanks, hsplit⟩ := exists_blanks_trimEnd cs
  conv_rhs => rw [hsplit]
  exact (wordsFrom_append_blanks hblanks [] _).symm

/-- Nothing is dropped in front of a letter that is no blank. -/
theorem dropWhile_solid {c : Char} {cs : List Char} (h : isBlank c = false) :
    (c :: cs).dropWhile isBlank = c :: cs := by
  rw [List.dropWhile_cons, if_neg (by rw [h]; exact Bool.false_ne_true)]

theorem trimEnd_cons {c : Char} (h : isBlank c = false) (cs : List Char) :
    trimEnd (c :: cs) = c :: trimEnd cs := by
  rw [trimEnd, trimEnd, List.reverse_cons, List.dropWhile_append]
  split
  · rename_i hblank
    rw [List.isEmpty_iff.mp hblank, dropWhile_solid h]
    rfl
  · rw [List.reverse_append]
    rfl

theorem trimEnd_append {cs : List Char} (h : Word cs) (before : List Char) :
    trimEnd (before ++ cs) = before ++ cs := by
  rw [trimEnd, List.reverse_append]
  cases hrev : cs.reverse with
  | nil => exact absurd (List.reverse_eq_nil_iff.mp hrev) h.nonempty
  | cons c rest =>
      have hc : c ∈ cs := List.mem_reverse.mp (by rw [hrev]; exact List.mem_cons_self)
      rw [List.cons_append, dropWhile_solid (h.solid c hc), ← List.cons_append, ← hrev,
        List.reverse_append, List.reverse_reverse, List.reverse_reverse]

/-- A text is cut at the separator behind letters that are none. -/
theorem cut?_append {sep : Char} {cs : List Char} (h : sep ∉ cs) (rest : List Char) :
    cut? sep (cs ++ sep :: rest) = some (cs, rest) := by
  induction cs with
  | nil => exact if_pos rfl
  | cons c cs ih =>
      rw [List.cons_append, cut?, if_neg (Ne.symm (List.ne_of_not_mem_cons h)),
        ih (List.not_mem_of_not_mem_cons h)]
      rfl

theorem trim_of_word {cs : List Char} (h : Word cs) : trim cs = cs := by
  have hfront : cs.dropWhile isBlank = cs := by
    cases cs with
    | nil => rfl
    | cons c cs => exact dropWhile_solid (h.solid c List.mem_cons_self)
  rw [trim, hfront]
  exact trimEnd_append h []

/-! ## 3. Lines -/

section Lines

variable {α : Type} [BEq α] [LawfulBEq α] {newline cr : α}

/-- A text without line ends. -/
def Unbroken (newline cr : α) (line : List α) : Prop := newline ∉ line ∧ cr ∉ line

/-- Lines written one behind another. -/
def unlines (newline : α) (lines : List (List α)) : List α := lines.flatMap (· ++ [newline])

omit [BEq α] [LawfulBEq α] in
theorem unlines_cons (newline : α) (line : List α) (lines : List (List α)) :
    unlines newline (line :: lines) = line ++ newline :: unlines newline lines := by
  rw [unlines, List.flatMap_cons, List.append_assoc, List.singleton_append]
  rfl

/-- The letters of a line are collected. -/
theorem linesFrom_append {line : List α} (h : newline ∉ line) (before rest : List α) :
    linesFrom newline cr before (line ++ rest) =
      linesFrom newline cr (line.reverse ++ before) rest := by
  induction line generalizing before with
  | nil => rfl
  | cons c line ih =>
      have hc : c ≠ newline := Ne.symm (List.ne_of_not_mem_cons h)
      rw [List.cons_append, linesFrom, if_neg (by rwa [beq_iff_eq]),
        ih (List.not_mem_of_not_mem_cons h), List.reverse_cons, List.append_assoc]
      rfl

/-- A finished line is the one that was written unless it ends in a carriage return. -/
theorem finishLine_reverse_iff {line : List α} :
    finishLine cr line.reverse = line ↔ line.getLast? ≠ some cr := by
  rcases List.eq_nil_or_concat line with rfl | ⟨before, c, rfl⟩
  · exact ⟨fun _ h => (by cases h), fun _ => rfl⟩
  · rw [List.concat_eq_append, List.reverse_append, List.reverse_singleton, List.singleton_append,
      finishLine, List.getLast?_concat, Ne, Option.some_inj]
    by_cases hc : c = cr
    · rw [if_pos (beq_iff_eq.mpr hc), List.reverse_reverse]
      exact ⟨fun h => absurd (congrArg List.length h) (by simp), fun h => absurd hc h⟩
    · rw [if_neg (beq_iff_eq.not.mpr hc), List.reverse_cons, List.reverse_reverse]
      exact ⟨fun _ => hc, fun _ => rfl⟩

/-- A newline ends the line in front of it. -/
theorem linesFrom_finish {line : List α} (h : newline ∉ line) (rest : List α) :
    linesFrom newline cr [] (line ++ newline :: rest) =
      finishLine cr line.reverse :: linesFrom newline cr [] rest := by
  rw [linesFrom_append h, List.append_nil, linesFrom, if_pos (beq_self_eq_true newline)]

theorem linesFrom_cons {line : List α} (h : Unbroken newline cr line) (rest : List α) :
    linesFrom newline cr [] (line ++ newline :: rest) =
      line :: linesFrom newline cr [] rest := by
  rw [linesFrom_finish h.1,
    finishLine_reverse_iff.mpr fun hlast => h.2 (List.mem_of_getLast? hlast)]

/-- The line behind the last newline, if there is one. -/
def openLine : List α → List (List α)
  | [] => []
  | c :: cs => [c :: cs]

omit [BEq α] [LawfulBEq α] in
theorem openLine_of_ne_nil {part : List α} (h : part ≠ []) : openLine part = [part] := by
  cases part with
  | nil => exact absurd rfl h
  | cons c cs => rfl

omit [BEq α] [LawfulBEq α] in
theorem length_openLine_le (part : List α) : (openLine part).length ≤ 1 := by
  cases part with
  | nil => exact Nat.zero_le 1
  | cons c cs => exact Nat.le_refl 1

/-- **Lines that are written one behind another are read as these lines**, and what stands behind
the last newline as one more. -/
theorem linesFrom_unlines_append {lines : List (List α)}
    (h : ∀ line ∈ lines, Unbroken newline cr line) {part : List α} (hpart : newline ∉ part) :
    linesFrom newline cr [] (unlines newline lines ++ part) = lines ++ openLine part := by
  induction lines with
  | nil =>
      have hcollect : linesFrom newline cr [] (part ++ []) =
          linesFrom newline cr (part.reverse ++ []) [] := linesFrom_append hpart [] []
      rw [List.append_nil, List.append_nil] at hcollect
      refine hcollect.trans ?_
      cases hrev : part.reverse with
      | nil =>
          obtain rfl := List.reverse_eq_nil_iff.mp hrev
          rfl
      | cons c cs =>
          have hne : part ≠ [] := fun hnil => by rw [hnil] at hrev; cases hrev
          rw [openLine_of_ne_nil hne, ← List.reverse_reverse part, hrev]
          rfl
  | cons line lines ih =>
      rw [unlines_cons, List.append_assoc, List.cons_append,
        linesFrom_cons (h line List.mem_cons_self)]
      exact congrArg _ (ih fun l hl => h l (List.mem_cons_of_mem _ hl))

theorem linesFrom_unlines {lines : List (List α)}
    (h : ∀ line ∈ lines, Unbroken newline cr line) :
    linesFrom newline cr [] (unlines newline lines) = lines := by
  have hlines : linesFrom newline cr [] (unlines newline lines ++ []) = lines ++ openLine [] :=
    linesFrom_unlines_append h List.not_mem_nil
  rwa [List.append_nil, openLine, List.append_nil] at hlines

/-- Every newline ends a line. -/
theorem length_linesFrom (line before rest : List α) :
    (linesFrom newline cr before (line ++ newline :: rest)).length =
      line.count newline + 1 + (linesFrom newline cr [] rest).length := by
  induction line generalizing before with
  | nil =>
      rw [List.nil_append, linesFrom, if_pos (beq_self_eq_true newline), List.length_cons,
        List.count_nil]
      omega
  | cons c line ih =>
      rw [List.cons_append, linesFrom, List.count_cons]
      by_cases hc : (c == newline) = true
      · rw [if_pos hc, if_pos hc, List.length_cons, ih]
        omega
      · rw [if_neg hc, if_neg hc, ih, Nat.add_zero]

/-- There are as many lines as texts and newlines in the texts. -/
theorem length_linesFrom_unlines (lines : List (List α)) :
    (linesFrom newline cr [] (unlines newline lines)).length =
      lines.length + lines.flatten.count newline := by
  induction lines with
  | nil => rfl
  | cons line lines ih =>
      rw [unlines_cons, length_linesFrom, ih, List.length_cons, List.flatten_cons,
        List.count_append]
      omega

/-- **Texts that are written one a line are read as these texts** exactly where none has a newline
in it or a carriage return at its end. -/
theorem linesFrom_unlines_iff {lines : List (List α)} :
    linesFrom newline cr [] (unlines newline lines) = lines ↔
      ∀ line ∈ lines, newline ∉ line ∧ line.getLast? ≠ some cr := by
  induction lines with
  | nil => exact ⟨fun _ _ h => absurd h List.not_mem_nil, fun _ => rfl⟩
  | cons line lines ih =>
      rw [unlines_cons, List.forall_mem_cons, ← ih]
      by_cases hline : newline ∈ line
      · -- there are more lines than texts
        refine ⟨fun h => ?_, fun h => absurd hline h.1.1⟩
        have hlen := congrArg List.length h
        rw [length_linesFrom, length_linesFrom_unlines, List.length_cons] at hlen
        have hcount := List.count_pos_iff.mpr hline
        omega
      · rw [linesFrom_finish hline, List.cons_eq_cons, finishLine_reverse_iff]
        exact ⟨fun h => ⟨⟨hline, h.1⟩, h.2⟩, fun h => ⟨h.1.2, h.2⟩⟩

omit [BEq α] [LawfulBEq α] in
/-- **What lines start with** are some of them and the start of the next one. -/
theorem exists_of_prefix_unlines {lines : List (List α)} {cs : List α}
    (h : cs <+: unlines newline lines) (hne : cs ≠ unlines newline lines) :
    ∃ done line todo part, lines = done ++ line :: todo ∧ cs = unlines newline done ++ part ∧
      part <+: line := by
  induction lines generalizing cs with
  | nil => exact absurd (List.prefix_nil.mp h) hne
  | cons line lines ih =>
      rw [unlines_cons] at h hne
      rcases Nat.lt_or_ge line.length cs.length with hlt | hle
      · -- the first line is there as a whole, with its end
        obtain ⟨more, rfl⟩ := List.prefix_of_prefix_length_le (List.prefix_append line _) h
          (Nat.le_of_lt hlt)
        rw [List.prefix_append_right_inj] at h
        cases more with
        | nil => rw [List.append_nil] at hlt; exact absurd hlt (Nat.lt_irrefl _)
        | cons c more =>
            obtain ⟨hc, hmore⟩ := List.cons_prefix_cons.mp h
            subst hc
            obtain ⟨done, next, todo, part, hlines, hpart, hnext⟩ :=
              ih hmore fun hsame => hne (by rw [hsame])
            refine ⟨line :: done, next, todo, part, by rw [hlines]; rfl, ?_, hnext⟩
            rw [hpart, unlines_cons, List.append_assoc, List.cons_append]
      · exact ⟨[], line, lines, cs, rfl, rfl,
          List.prefix_of_prefix_length_le h (List.prefix_append line _) hle⟩

end Lines

/-- Words with blanks between them are one line. -/
theorem unbroken_spaced {fields : List (List Char)} (h : ∀ cs ∈ fields, Word cs) :
    Unbroken '\n' '\r' (spaced fields) := by
  have hends : ∀ c, isBlank c = true → c ≠ ' ' → c ∉ spaced fields := fun c hc hne hmem => by
    rcases mem_spaced hmem with rfl | ⟨cs, hcs, hmem⟩
    · exact hne rfl
    · rw [(h cs hcs).solid c hmem] at hc
      cases hc
  exact ⟨hends '\n' (by decide) (by decide), hends '\r' (by decide) (by decide)⟩

end Factbase.Text
