/-!
# Cutting text

* `cut?`: at the first separator;
* `pieces`: at every separator, with the empty pieces between two of them.
-/

namespace Factbase.Text

/-- Cut a text at its first `sep`, if it has one. -/
def cut? (sep : Char) : List Char → Option (List Char × List Char)
  | [] => none
  | c :: cs =>
    if c = sep then
      some ([], cs)
    else
      (cut? sep cs).map fun (before, after) => (c :: before, after)

/-- Put a character in front of the first piece. -/
def extendFirst (c : Char) : List (List Char) → List (List Char)
  | [] => [[c]]
  | piece :: rest => (c :: piece) :: rest

/-- The pieces of a text between separators. -/
def pieces (sep : Char) : List Char → List (List Char)
  | [] => [[]]
  | c :: cs => if c = sep then [] :: pieces sep cs else extendFirst c (pieces sep cs)

end Factbase.Text
