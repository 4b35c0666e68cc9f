/-!
# Lines

Cutting a text into lines, over any alphabet with a newline and a carriage return. A newline
ends a line and takes one carriage return before it along; what stands behind the last newline
is a line if it is not empty, and keeps all of its characters.

* `splitLines`: characters;
* `byteLines`: bytes, each line decoded for itself, so that one bad line leaves the others
  readable.
-/

namespace Factbase.Text

section Alphabet

variable {α : Type} [BEq α]

/-- A finished line, which is given in reverse. -/
def finishLine (cr : α) : List α → List α
  | [] => []
  | c :: line => if c == cr then line.reverse else (c :: line).reverse

/-- The lines of a text behind the beginning of a line, which is given in reverse. -/
def linesFrom (newline cr : α) : List α → List α → List (List α)
  | [], [] => []
  | line, [] => [line.reverse]
  | line, c :: cs =>
    if c == newline then
      finishLine cr line :: linesFrom newline cr [] cs
    else
      linesFrom newline cr (c :: line) cs

end Alphabet

/-- The lines of a text. -/
def splitLines (cs : List Char) : List (List Char) := linesFrom '\n' '\r' [] cs

/-- The text that bytes encode, where they do. -/
def decode? (bytes : List UInt8) : Option (List Char) :=
  (String.fromUTF8? ⟨bytes.toArray⟩).map String.toList

/-- The lines of a file, `none` for one that is not UTF-8. -/
def byteLines (data : ByteArray) : List (Option (List Char)) :=
  (linesFrom (10 : UInt8) 13 [] data.toList).map decode?

end Factbase.Text
