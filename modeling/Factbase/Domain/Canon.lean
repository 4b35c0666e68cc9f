/-!
# Canonical texts

Ways to write the values of a domain. `verbatim` keeps distinct values apart; the others may
not, which a domain notices when it is saved.
-/

namespace Factbase

/-- How a value is written. -/
inductive Canon where
  /-- As it is. -/
  | verbatim
  /-- A string in small ASCII letters. -/
  | lower
  /-- The last decimal digit of a number. -/
  | lastDigit
  /-- In angle brackets. -/
  | angle
deriving DecidableEq, Repr, Inhabited

namespace Canon

/-- The text of a string. -/
def ofString (c : Canon) (s : String) : String :=
  match c with
  | .lower => String.ofList (s.toList.map Char.toLower)
  | .angle => "<" ++ s ++ ">"
  | .verbatim | .lastDigit => s

/-- The text of a number. -/
def ofWord (c : Canon) (n : UInt32) : String :=
  match c with
  | .lastDigit => s!"{n.toNat % 10}"
  | .angle => s!"<{n.toNat}>"
  | .verbatim | .lower => s!"{n.toNat}"

end Canon

end Factbase
