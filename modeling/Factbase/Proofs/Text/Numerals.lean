import Factbase.Proofs.Outcome
import Factbase.Proofs.Text.Rendering

/-!
# Numerals

A numeral of a range is a sign that the range allows, or none, and decimal digits whose value is in
range. Leading zeros are allowed, and nothing else is.

* `Decimal`, `Numeral`: digits with their value, numerals with their number;
* `readDigits_eq_ok_iff`, `readUnsigned_eq_ok_iff`: digits are read just when the value is in range;
* `readInt_eq_ok_iff`, `readNat_eq_ok_iff`: **a number is read from its numerals and from nothing
  else.**
-/

namespace Factbase.Text

/-! ## 1. What a numeral is -/

/-- Decimal digits, at least one, and their value. -/
structure Decimal (cs : List Char) (value : Nat) : Prop where
  nonempty : cs ≠ []
  digits : ∀ c ∈ cs, c.isDigit = true
  value : Nat.ofDigitChars 10 cs 0 = value

/-- A numeral of the range and its number. Only a range with negative numbers has a minus sign. -/
inductive Numeral (range : NumeralRange) : List Char → Int → Prop
  | bare {cs : List Char} {n : Nat} : Decimal cs n → n ≤ range.most → Numeral range cs n
  | plus {cs : List Char} {n : Nat} : Decimal cs n → n ≤ range.most → Numeral range ('+' :: cs) n
  | minus {cs : List Char} {n least : Nat} : range.least = some least → Decimal cs n → n ≤ least →
      Numeral range ('-' :: cs) (-n)

/-! ## 2. Digits -/

variable {most value n : Nat} {beyond : NumeralError} {cs : List Char}

theorem isDigit_iff {c : Char} : c.isDigit = true ↔ '0' ≤ c ∧ c ≤ '9' := by
  rw [Char.isDigit, Bool.and_eq_true, decide_eq_true_eq, decide_eq_true_eq]
  rfl

theorem digit?_eq_some_iff {c : Char} {d : Nat} :
    digit? c = some d ↔ c.isDigit = true ∧ c.toNat - '0'.toNat = d := by
  rw [digit?, isDigit_iff, Option.ite_none_right_eq_some, Option.some_inj]

/-- **Digits behind a value are read just when the number that they make is in range.** -/
theorem readDigits_eq_ok_iff (hmost : value ≤ most) :
    readDigits most beyond value cs = .ok n ↔
      (∀ c ∈ cs, c.isDigit = true) ∧ Nat.ofDigitChars 10 cs value = n ∧ n ≤ most := by
  refine ⟨fun h => ?_, fun ⟨hdigits, hvalue, hle⟩ => hvalue ▸ readDigits_eq hdigits (hvalue ▸ hle)⟩
  induction cs generalizing value with
  | nil =>
      obtain rfl := Except.ok.inj (show Except.ok value = Except.ok n from h)
      exact ⟨fun c hc => absurd hc List.not_mem_nil, Nat.ofDigitChars_nil, hmost⟩
  | cons c cs ih =>
      rw [readDigits] at h
      split at h
      · cases h
      · rename_i d hd
        obtain ⟨hc, rfl⟩ := digit?_eq_some_iff.mp hd
        split at h
        · cases h
        · rename_i hfits
          obtain ⟨hdigits, hvalue, hle⟩ := ih (Nat.le_of_not_lt hfits) h
          refine ⟨List.forall_mem_cons.mpr ⟨hc, hdigits⟩, ?_, hle⟩
          rw [Nat.ofDigitChars_cons, Nat.mul_comm, hvalue]

theorem readUnsigned_eq_ok_iff :
    readUnsigned most beyond cs = .ok n ↔ Decimal cs n ∧ n ≤ most := by
  cases cs with
  | nil => exact iff_of_false (fun h => by cases h) fun h => h.1.nonempty rfl
  | cons c cs =>
      rw [show readUnsigned most beyond (c :: cs) = readDigits most beyond 0 (c :: cs) from rfl,
        readDigits_eq_ok_iff (Nat.zero_le most)]
      exact ⟨fun ⟨hdigits, hvalue, hle⟩ => ⟨⟨List.cons_ne_nil c cs, hdigits, hvalue⟩, hle⟩,
        fun ⟨h, hle⟩ => ⟨h.digits, h.value, hle⟩⟩

/-! ## 3. Numbers -/

variable {range : NumeralRange} {i : Int}

/-- **A number is read from its numerals and from nothing else.** -/
theorem readInt_eq_ok_iff : readInt range cs = .ok i ↔ Numeral range cs i := by
  constructor
  · intro h
    unfold readInt at h
    split at h
    · cases h
    · obtain ⟨k, hk, h⟩ := ok_of_bind h
      obtain ⟨hdecimal, hle⟩ := readUnsigned_eq_ok_iff.mp hk
      exact Except.ok.inj h ▸ .plus hdecimal hle
    · rename_i hleast
      obtain ⟨k, hk, h⟩ := ok_of_bind h
      obtain ⟨hdecimal, hle⟩ := readUnsigned_eq_ok_iff.mp hk
      exact Except.ok.inj h ▸ .minus hleast hdecimal hle
    · obtain ⟨k, hk, h⟩ := ok_of_bind h
      obtain ⟨hdecimal, hle⟩ := readUnsigned_eq_ok_iff.mp hk
      exact Except.ok.inj h ▸ .bare hdecimal hle
  · intro h
    cases h with
    | @bare _ n hdecimal hle =>
        have hread : readUnsigned range.most .tooLarge cs = .ok n :=
          readUnsigned_eq_ok_iff.mpr ⟨hdecimal, hle⟩
        unfold readInt
        split
        · exact absurd rfl hdecimal.nonempty
        · exact absurd (hdecimal.digits _ List.mem_cons_self) (by decide)
        · exact absurd (hdecimal.digits _ List.mem_cons_self) (by decide)
        · exact bind_eq_ok hread rfl
    | plus hdecimal hle => exact bind_eq_ok (readUnsigned_eq_ok_iff.mpr ⟨hdecimal, hle⟩) rfl
    | minus hleast hdecimal hle =>
        unfold readInt
        rw [hleast]
        exact bind_eq_ok (readUnsigned_eq_ok_iff.mpr ⟨hdecimal, hle⟩) rfl

/-- The number of a numeral is not below the range. -/
theorem Numeral.nonneg (hleast : range.least = none) (h : Numeral range cs i) : 0 ≤ i := by
  cases h with
  | bare => exact Int.natCast_nonneg _
  | plus => exact Int.natCast_nonneg _
  | minus hsome => rw [hleast] at hsome; cases hsome

/-- **So is a number of an unsigned range.** -/
theorem readNat_eq_ok_iff (hleast : range.least = none) :
    readNat range cs = .ok n ↔ Numeral range cs n := by
  rw [← readInt_eq_ok_iff]
  constructor
  · intro h
    obtain ⟨j, hj, h⟩ := ok_of_bind h
    have hj0 := (readInt_eq_ok_iff.mp hj).nonneg hleast
    rw [hj, ← Except.ok.inj h, Int.toNat_of_nonneg hj0]
  · exact fun h => bind_eq_ok h rfl

/-- The decimal text of a number in range is a numeral of it. -/
theorem numeral_repr (h : n ≤ range.most) : Numeral range n.repr.toList n :=
  readInt_eq_ok_iff.mp (readInt_repr h)

/-- **The decimal text of a number is read as this number, and only in range.** -/
theorem of_readInt_repr (h : readInt range n.repr.toList = .ok i) : i = n ∧ n ≤ range.most := by
  have hdigit : ∀ c ∈ n.repr.toList, c.isDigit = true := fun c => isDigit_of_mem_repr
  have hvalue : Nat.ofDigitChars 10 n.repr.toList 0 = n := by
    rw [Nat.toList_repr, Nat.ofDigitChars_ten_toDigits]
  have hnumeral := readInt_eq_ok_iff.mp h
  generalize n.repr.toList = cs at hdigit hvalue hnumeral
  cases hnumeral with
  | bare hdecimal hle =>
      obtain rfl := hdecimal.value.symm.trans hvalue
      exact ⟨rfl, hle⟩
  | plus => exact absurd (hdigit '+' List.mem_cons_self) (by decide)
  | minus => exact absurd (hdigit '-' List.mem_cons_self) (by decide)

theorem of_readNat_repr {m : Nat} (h : readNat range n.repr.toList = .ok m) :
    m = n ∧ n ≤ range.most := by
  obtain ⟨j, hj, h⟩ := ok_of_bind h
  obtain ⟨rfl, hle⟩ := of_readInt_repr hj
  exact ⟨(Except.ok.inj h).symm, hle⟩

end Factbase.Text
