import Factbase.Numeric.Power

/-!
# Floating-point numbers as decimal text

* `Decimal.shortest`: of the decimals that read back as a given number those with the fewest
  digits, of these the nearest, of two equally near ones the greater;
* `renderFloat`: that decimal in positional notation, without a point where there is no fraction;
* `readFloat`: reading digits with an optional point and exponent, and the names of the infinite
  and undefined numbers in any case.
-/

namespace Factbase

/-! ## 1. Exact values -/

/-- The value `digits * 10 ^ exponent`. -/
structure Decimal where
  digits : Nat
  exponent : Int
deriving DecidableEq, Repr, Inhabited

/-- A finite positive number `mantissa * 2 ^ exponent` with the reals that round to it. -/
structure BinaryValue where
  mantissa : Nat
  exponent : Int
  /-- Whether the next smaller number is only half as far away as the next greater one. -/
  tightBelow : Bool
deriving DecidableEq, Repr, Inhabited

namespace BinaryValue

/-- Read the fields of a 64-bit number without its sign, which is finite and not zero. -/
def ofBits (bits : Nat) : BinaryValue :=
  let fraction : Nat := bits % twoPow 52
  let field : Nat := bits / twoPow 52 % twoPow 11
  if field = 0 then
    ⟨fraction, -1074, false⟩
  else
    ⟨fraction + twoPow 52, (field : Int) - 1075, fraction = 0 && 1 < field⟩

/-- A fraction `num / den` such that a quarter of the last place is `num / den` steps of size
`tenPow grid`. -/
def quarter (d : BinaryValue) (grid : Int) : Nat × Nat :=
  let e := d.exponent - 2
  (twoPow e.toNat * tenPow (-grid).toNat, twoPow (-e).toNat * tenPow grid.toNat)

/-- The number of decimal digits in front of the point, negative for leading zeros behind it. -/
def magnitude (d : BinaryValue) : Int :=
  let (num, den) := d.quarter (-400)
  ((Nat.toDigits 10 (4 * d.mantissa * num / den)).length : Int) - 400

/-- Whether `c` steps of size `den / num` quarters read back as `d`. -/
def readsBack (d : BinaryValue) (num den c : Nat) : Bool :=
  let low := (4 * d.mantissa - if d.tightBelow then 1 else 2) * num
  let high := (4 * d.mantissa + 2) * num
  if d.mantissa % 2 = 0 then
    low ≤ c * den && c * den ≤ high
  else
    low < c * den && c * den < high

/-- The nearest decimal of a grid that reads back, if one does. -/
def onGrid? (d : BinaryValue) (grid : Int) : Option Decimal :=
  let (num, den) := d.quarter grid
  let exact := 4 * d.mantissa * num
  let below := exact / den
  let above := below + 1
  match d.readsBack num den below, d.readsBack num den above with
  | true, true => some ⟨if exact - below * den < above * den - exact then below else above, grid⟩
  | true, false => some ⟨below, grid⟩
  | false, true => some ⟨above, grid⟩
  | false, false => none

end BinaryValue

/-- The shortest decimal that reads back as `d`; seventeen digits always do. -/
def Decimal.shortest (d : BinaryValue) : Decimal :=
  let magnitude := d.magnitude
  ((List.range' 1 17).findSome? fun (n : Nat) => d.onGrid? (magnitude - n)).getD ⟨0, 0⟩

/-! ## 2. Printing -/

/-- Positional notation. -/
def Decimal.render (d : Decimal) : String :=
  let digits := (Nat.toDigits 10 d.digits)
  let zeros (n : Nat) := List.replicate n '0'
  if 0 ≤ d.exponent then
    String.ofList (digits ++ zeros d.exponent.toNat)
  else
    let places := (-d.exponent).toNat
    let padded := zeros (places + 1 - digits.length) ++ digits
    let whole := padded.take (padded.length - places)
    let fraction := padded.drop (padded.length - places)
    match (fraction.reverse.dropWhile (· == '0')).reverse with
    | [] => String.ofList whole
    | fraction => String.ofList (whole ++ '.' :: fraction)

/-- The shortest text of a floating-point number. -/
def renderFloat (x : Float) : String :=
  if x.isNaN then
    "NaN"
  else
    let bits := x.toBits.toNat
    let sign := if twoPow 63 ≤ bits then "-" else ""
    let size := bits % twoPow 63
    if x.isInf then
      sign ++ "inf"
    else if size = 0 then
      sign ++ "0"
    else
      sign ++ (Decimal.shortest (BinaryValue.ofBits size)).render

/-! ## 3. Reading -/

/-- What is wrong with the text of a floating-point number. -/
inductive FloatError where
  | empty
  | invalid
deriving DecidableEq, Repr, Inhabited

/-- The text of the error. -/
def FloatError.message : FloatError → String
  | .empty => "cannot parse float from empty string"
  | .invalid => "invalid float literal"

/-- The value of a run of digits. -/
def digitsValue (cs : List Char) : Nat :=
  cs.foldl (fun n c => 10 * n + (c.toNat - '0'.toNat)) 0

/-- An exponent behind its letter. -/
def readExponent? (cs : List Char) : Option Int :=
  let (negative, digits) := match cs with
    | '+' :: cs => (false, cs)
    | '-' :: cs => (true, cs)
    | cs => (false, cs)
  if digits.isEmpty || !digits.all Char.isDigit then
    none
  else if negative then
    some (-(digitsValue digits : Nat))
  else
    some (digitsValue digits : Nat)

/-- Digits with an optional point and exponent. -/
def readDecimal? (cs : List Char) : Option Decimal := do
  let whole := cs.takeWhile Char.isDigit
  let rest := cs.dropWhile Char.isDigit
  let (fraction, rest) := match rest with
    | '.' :: rest => (rest.takeWhile Char.isDigit, rest.dropWhile Char.isDigit)
    | rest => ([], rest)
  if whole.isEmpty && fraction.isEmpty then
    none
  else
    let exponent ← match rest with
      | [] => some 0
      | c :: rest => if c = 'e' ∨ c = 'E' then readExponent? rest else none
    return ⟨digitsValue (whole ++ fraction), exponent - fraction.length⟩

/-- The floating-point number nearest to a decimal. Far out of range, where the powers of ten
would be needlessly large, the answer is known beforehand: ten lies above the third power of
two. -/
def Decimal.toFloat (d : Decimal) : Float :=
  let size : Int := d.digits.log2 + 3 * d.exponent
  if d.digits = 0 then
    0.0
  else if 0 ≤ d.exponent then
    if 1200 < size then 1.0 / 0.0 else Float.ofScientific d.digits false d.exponent.toNat
  else
    if size < -1200 then 0.0 else Float.ofScientific d.digits true (-d.exponent).toNat

/-- A number without a sign. -/
def readMagnitude? (cs : List Char) : Option Float :=
  let name := String.ofList (cs.map Char.toLower)
  if name = "inf" ∨ name = "infinity" then
    some (1.0 / 0.0)
  else if name = "nan" then
    some (0.0 / 0.0)
  else
    (readDecimal? cs).map Decimal.toFloat

/-- Read a floating-point number. -/
def readFloat (cs : List Char) : Except FloatError Float :=
  let (negative, rest) := match cs with
    | '+' :: rest => (false, rest)
    | '-' :: rest => (true, rest)
    | rest => (false, rest)
  match cs, readMagnitude? rest with
  | [], _ => .error .empty
  | _, none => .error .invalid
  | _, some x => .ok (if negative then -x else x)

end Factbase
