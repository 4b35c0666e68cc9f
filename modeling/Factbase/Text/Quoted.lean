import Factbase.Text.Printable

/-!
# Quoted text

A text between double quotes, on one line: quotes and backslashes are escaped, the usual
control characters by a letter, and any other character that is not printable by its code point
in hexadecimal.
-/

namespace Factbase.Text

/-- The digits of a code point in lower-case hexadecimal. -/
def hexadecimal (n : Nat) : List Char := Nat.toDigits 16 n

/-- A character inside quotes. -/
def escape (c : Char) : List Char :=
  match c with
  | '"' => ['\\', '"']
  | '\\' => ['\\', '\\']
  | '\n' => ['\\', 'n']
  | '\t' => ['\\', 't']
  | '\r' => ['\\', 'r']
  | '\x00' => ['\\', '0']
  | c =>
    if isPrintable c then
      [c]
    else
      ['\\', 'u', '\x7b'] ++ hexadecimal c.toNat ++ ['\x7d']

/-- A text in quotes. -/
def quoted (s : String) : String :=
  String.ofList ('"' :: s.toList.flatMap escape ++ ['"'])

/-- A list of texts, each in quotes. -/
def quotedList (ss : List String) : String :=
  "[" ++ ", ".intercalate (ss.map quoted) ++ "]"

end Factbase.Text
