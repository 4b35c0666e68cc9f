import Factbase.Domain.Basic
import Factbase.Files
import Factbase.Text.Blank
import Factbase.Text.Lines
import Factbase.Text.Numeral

/-!
# Files of domains

A domain is kept in two files: one with its name, its size and the name of the other, and the
other with the canonical texts in order, one a line. Two values with the same text cannot both
be written; what stands in front of the second is written all the same. A domain of strings is
read back from both files, each line being a value.
-/

namespace Factbase

open Text

/-! ## 1. Errors -/

/-- What is wrong with the files of a domain. -/
inductive DomainProblem where
  | header (name found : String)
  | badSize (field : String)
  | duplicateValue (line : String)
  | count (expected found : Nat)
deriving DecidableEq, Repr, Inhabited

/-- The text of a problem. -/
def DomainProblem.message : DomainProblem → String
  | .header name found => s!"expected '{name} <size> <map>', got '{found}'"
  | .badSize field => s!"bad size '{field}'"
  | .duplicateValue line => s!"duplicate value '{line}'"
  | .count expected found => s!"expected {expected} values, found {found}"

/-- Why a domain cannot be saved or loaded. -/
inductive DomainError where
  | access (path : String) (error : AccessError)
  | duplicateCanonical (domain : String) (first second : Nat) (text : String)
  | format (path : String) (problem : DomainProblem)
deriving DecidableEq, Repr, Inhabited

/-- The text of an error. -/
def DomainError.message : DomainError → String
  | .access path error => s!"cannot access '{path}': {error.word}"
  | .duplicateCanonical domain first second text =>
    s!"domain {domain}: indices {first} and {second} share the canonical string '{text}'"
  | .format path problem => s!"malformed domain file '{path}': {problem.message}"

namespace Domain

/-! ## 2. Saving -/

/-- The header of a saved domain. -/
def header (name : String) (size : Nat) : String := s!"{name} {size} {mapFile name}\n"

/-- The texts in front of the first that repeats an earlier one, and that repetition as the two
positions and the text; `index` is the position of the first text, `seen` has the texts in front
of it. -/
def distinctPart : Nat → Std.HashMap String Nat → List String →
    List String × Option (Nat × Nat × String)
  | _, _, [] => ([], none)
  | index, seen, text :: texts =>
    match seen[text]? with
    | some first => ([], some (first, index, text))
    | none =>
      let (written, rest) := distinctPart (index + 1) (seen.insert text index) texts
      (text :: written, rest)

/-- Texts as lines. -/
def lines (texts : List String) : String := String.join (texts.map (· ++ "\n"))

/-- Write a file of a domain. -/
def write (path : Path) (text : String) : EStateM DomainError Files Unit := fun files =>
  match files.writeText? path text with
  | .ok files => .ok () files
  | .error error => .error (.access path.text error) files

/-- Save a domain with given canonical texts. -/
def saveTexts (name : String) (texts : List String) (folder : Path) (withMap : Bool) :
    EStateM DomainError Files Unit := do
  write (folder.join (domFile name)) (header name texts.length)
  if withMap then
    let (written, repeated) := distinctPart 0 ∅ texts
    write (folder.join (mapFile name)) (lines written)
    if let some (first, second, text) := repeated then
      throw (.duplicateCanonical name first second text)

/-- Save a domain. -/
def save {α : Type} [BEq α] [Hashable α] (d : Domain α) (folder : Path) (withMap : Bool) :
    EStateM DomainError Files Unit :=
  saveTexts d.name (d.values.map d.canon) folder withMap

/-! ## 3. Loading -/

/-- Read a file of a domain. -/
def readFile (files : Files) (path : Path) : Except DomainError String :=
  (files.readText? path).mapError (.access path.text)

/-- Read the header: the size and the name of the map file. -/
def readHeader (name : String) (path : Path) (text : String) :
    Except DomainError (Nat × String) := do
  match (words text.toList).map String.ofList with
  | [found, size, map] =>
    if found ≠ name then
      throw (.format path.text (.header name (trimString text)))
    match readNat .word64 size.toList with
    | .ok size => return (size, map)
    | .error _ => throw (.format path.text (.badSize size))
  | _ => throw (.format path.text (.header name (trimString text)))

/-- Number the lines of a map file, which have to be distinct. -/
def numberLines (path : Path) :
    Numbering String → List String → Except DomainError (Numbering String)
  | n, [] => .ok n
  | n, line :: lines =>
    if (n.indexOf? line).isSome then
      .error (.format path.text (.duplicateValue line))
    else
      numberLines path (n.push line) lines

/-- Load a domain of strings. -/
def load (files : Files) (folder : Path) (name : String) :
    Except DomainError (Domain String) := do
  let domPath := folder.join (domFile name)
  let (size, map) ← readHeader name domPath (← readFile files domPath)
  let mapPath := folder.join map
  let text ← readFile files mapPath
  let numbering ← numberLines mapPath {} ((splitLines text.toList).map String.ofList)
  if numbering.size ≠ size then
    throw (.format mapPath.text (.count size numbering.size))
  return ⟨name, id, numbering⟩

end Domain

/-- Save a domain of either type. -/
def Universe.save : Universe → Path → Bool → EStateM DomainError Files Unit
  | .strings d => d.save
  | .words d => d.save

end Factbase
