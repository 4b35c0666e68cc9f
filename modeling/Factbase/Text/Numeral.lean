import Factbase.Numeric.Power

/-!
# Numerals

Reading whole numbers of a bounded range from decimal text. A sign may lead: `+` always, `-`
only where the range has negative numbers. Digits are read from the left, and the first thing
wrong is reported: a character that is no digit, or a digit that takes the value out of range.
-/

namespace Factbase.Text

/-- What is wrong with a numeral. -/
inductive NumeralError where
  | empty
  | invalidDigit
  | tooLarge
  | tooSmall
deriving DecidableEq, Repr, Inhabited

/-- The text of a numeral's error. -/
def NumeralError.message : NumeralError → String
  | .empty => "cannot parse integer from empty string"
  | .invalidDigit => "invalid digit found in string"
  | .tooLarge => "number too large to fit in target type"
  | .tooSmall => "number too small to fit in target type"

/-- A range of whole numbers around zero. -/
structure NumeralRange where
  /-- The greatest number. -/
  most : Nat
  /-- The size of the least number, where there are negative ones. -/
  least : Option Nat

namespace NumeralRange

/-- Unsigned 64-bit numbers. -/
def word64 : NumeralRange := ⟨twoPow 64 - 1, none⟩

/-- Unsigned 32-bit numbers. -/
def word32 : NumeralRange := ⟨twoPow 32 - 1, none⟩

/-- Signed 32-bit numbers. -/
def signed32 : NumeralRange := ⟨twoPow 31 - 1, some (twoPow 31)⟩

end NumeralRange

/-- The value of a decimal digit. -/
def digit? (c : Char) : Option Nat :=
  if '0' ≤ c ∧ c ≤ '9' then some (c.toNat - '0'.toNat) else none

/-- Read digits behind a value already read; beyond `most` the error is `beyond`. -/
def readDigits (most : Nat) (beyond : NumeralError) : Nat → List Char → Except NumeralError Nat
  | value, [] => .ok value
  | value, c :: cs =>
    match digit? c with
    | none => .error .invalidDigit
    | some d =>
      if most < value * 10 + d then
        .error beyond
      else
        readDigits most beyond (value * 10 + d) cs

/-- Read digits, of which there has to be one. -/
def readUnsigned (most : Nat) (beyond : NumeralError) (cs : List Char) :
    Except NumeralError Nat :=
  if cs.isEmpty then .error .invalidDigit else readDigits most beyond 0 cs

/-- Read a number of the range. -/
def readInt (range : NumeralRange) (cs : List Char) : Except NumeralError Int :=
  match cs, range.least with
  | [], _ => .error .empty
  | '+' :: cs, _ => return (← readUnsigned range.most .tooLarge cs)
  | '-' :: cs, some least => return -(← readUnsigned least .tooSmall cs : Nat)
  | cs, _ => return (← readUnsigned range.most .tooLarge cs)

/-- Read a number of an unsigned range. -/
def readNat (range : NumeralRange) (cs : List Char) : Except NumeralError Nat := do
  return (← readInt range cs).toNat

end Factbase.Text
