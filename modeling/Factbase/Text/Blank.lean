/-!
# Blank characters and words

The 25 characters of the property White_Space, and cutting text at them:

* `trim`, `trimEnd` drop blanks at the ends;
* `words` lists the pieces between blanks, none of them empty.
-/

namespace Factbase.Text

/-- White space. -/
def isBlank (c : Char) : Bool :=
  let n := c.toNat
  (0x9 ≤ n && n ≤ 0xd) || n = 0x20 || n = 0x85 || n = 0xa0 || n = 0x1680
    || (0x2000 ≤ n && n ≤ 0x200a) || n = 0x2028 || n = 0x2029 || n = 0x202f || n = 0x205f
    || n = 0x3000

/-- Drop blanks at the end. -/
def trimEnd (cs : List Char) : List Char := (cs.reverse.dropWhile isBlank).reverse

/-- Drop blanks at both ends. -/
def trim (cs : List Char) : List Char := trimEnd (cs.dropWhile isBlank)

/-- The words of a text, the letters of an unfinished one in reverse. -/
def wordsFrom : List Char → List Char → List (List Char)
  | [], [] => []
  | word, [] => [word.reverse]
  | word, c :: cs =>
    if isBlank c then
      if word.isEmpty then wordsFrom [] cs else word.reverse :: wordsFrom [] cs
    else
      wordsFrom (c :: word) cs

/-- The pieces of a text between blanks. -/
def words (cs : List Char) : List (List Char) := wordsFrom [] cs

/-- `trim` on strings. -/
def trimString (s : String) : String := String.ofList (trim s.toList)

end Factbase.Text
