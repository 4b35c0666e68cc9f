import Factbase.Files
import Factbase.Text.Blank
import Factbase.Text.Cut
import Factbase.Text.Lines
import Factbase.Text.Numeral

/-!
# Headers of relation files

The file of a relation starts with a line that names its slots with their widths, followed by a
line for every slot with its variables, the most significant bit first; the diagram's body comes
behind them. `Header.render` writes these lines for a layout, and `Header.read` checks them
against the slots of a relation that may list them in another order and be wider.
-/

namespace Factbase.Relation

open Text

/-! ## 1. Errors -/

/-- What is wrong with a header. -/
inductive HeaderProblem where
  | noHeader (line : List Char)
  | fieldShape (field : List Char)
  | unknownSlot (name : List Char)
  | badWidth (field : List Char)
  | repeatedSlot (name : List Char)
  | tooWide (name : List Char) (saved available : Nat)
  | slotCount (expected found : Nat)
  | noVariables (name : String)
  | badVariable (name : String) (error : NumeralError)
  | variableCount (name : String) (listed width : Nat)
  | repeatedVariable (v : Nat) (name : String)
deriving DecidableEq, Repr, Inhabited

/-- The text of a problem. -/
def HeaderProblem.message : HeaderProblem → String
  | .noHeader line => s!"expected '#' header, got '{String.ofList line}'"
  | .fieldShape field => s!"expected '<domain>:<bits>', got '{String.ofList field}'"
  | .unknownSlot name => s!"unknown domain '{String.ofList name}'"
  | .badWidth field => s!"bad bit width in '{String.ofList field}'"
  | .repeatedSlot name => s!"domain '{String.ofList name}' appears twice"
  | .tooWide name saved available =>
    s!"domain '{String.ofList name}' was saved with {saved} bits"
      ++ s!" but only {available} are available"
  | .slotCount expected found => s!"expected {expected} domains, found {found}"
  | .noVariables name => s!"expected variables of '{name}'"
  | .badVariable name error => s!"bad variable of '{name}': {error.message}"
  | .variableCount name listed width =>
    s!"domain '{name}' lists {listed} variables but has {width} bits"
  | .repeatedVariable v name => s!"variable {v} of '{name}' is listed twice"

/-- Why a header cannot be read. -/
inductive HeaderError where
  | access (error : AccessError)
  | format (problem : HeaderProblem)
deriving DecidableEq, Repr, Inhabited

namespace Header

/-! ## 2. Writing -/

/-- A line of a header. -/
def line (fields : List String) : String :=
  String.join ("#" :: fields.map (" " ++ ·)) ++ "\n"

/-- The header of slots with given names and variables. -/
def render (names : List String) (slots : List (List Nat)) : String :=
  line ((names.zip slots).map fun (name, vars) => s!"{name}:{vars.length}")
    ++ String.join (slots.map fun vars => line (vars.map toString))

/-! ## 3. Reading -/

/-- Slots with the widths that a file gives them, in the file's order. -/
abbrev FileSlots := List (Nat × Nat)

/-- The text of a line without blanks at its end; behind the last line all are empty. -/
def lineText (line : Option (Option (List Char))) : Except HeaderError (List Char) :=
  match line with
  | none => .ok []
  | some none => .error (.access .invalidData)
  | some (some cs) => .ok (trimEnd cs)

/-- What stands behind the mark of a header line. -/
def unmark (problem : HeaderProblem) (cs : List Char) : Except HeaderError (List Char) :=
  match cs with
  | '#' :: cs => .ok cs
  | _ => .error (.format problem)

/-- Read `name:width`, given the slots' names and widths. -/
def readSlot (names : List String) (widths : List Nat) (before : FileSlots)
    (field : List Char) : Except HeaderError (Nat × Nat) := do
  let some (name, widthText) := cut? ':' field | throw (.format (.fieldShape field))
  let some slot := names.idxOf? (String.ofList name) | throw (.format (.unknownSlot name))
  let .ok width := readNat .word64 widthText | throw (.format (.badWidth field))
  if before.any (·.1 == slot) then
    throw (.format (.repeatedSlot name))
  let available := widths[slot]?.getD 0
  if available < width then
    throw (.format (.tooWide name width available))
  return (slot, width)

/-- Read the slots of the first line, behind those in `before`. -/
def readSlots (names : List String) (widths : List Nat) :
    FileSlots → List (List Char) → Except HeaderError FileSlots
  | before, [] => .ok before
  | before, field :: fields => do
    let slot ← readSlot names widths before field
    readSlots names widths (before ++ [slot]) fields

/-- The first element that repeats another or one of `seen`. -/
def firstRepeat? : List Nat → List Nat → Option Nat
  | _, [] => none
  | seen, v :: vs => if seen.contains v then some v else firstRepeat? (v :: seen) vs

/-- Read the variables of one slot; those in `seen` are taken. -/
def readVariables (name : String) (width : Nat) (seen : List Nat) (cs : List Char) :
    Except HeaderError (List Nat) := do
  let rest ← unmark (.noVariables name) cs
  let vars ← ((words rest).mapM (readNat .word32)).mapError fun error =>
    .format (.badVariable name error)
  if vars.length ≠ width then
    throw (.format (.variableCount name vars.length width))
  if let some v := firstRepeat? seen vars then
    throw (.format (.repeatedVariable v name))
  return vars

/-- Read the variables of all slots in the file's order; the result pairs each slot with its
variables. -/
def readBlocks (names : List String) :
    FileSlots → List Nat → List (Option (List Char)) → Except HeaderError (List (Nat × List Nat))
  | [], _, _ => .ok []
  | (slot, width) :: slots, seen, lines => do
    let name := names[slot]?.getD ""
    let vars ← readVariables name width seen (← lineText lines.head?)
    return (slot, vars) :: (← readBlocks names slots (seen ++ vars) lines.tail)

/-- Read a header: the file's variables of every slot, and the lines behind the header. -/
def read (names : List String) (widths : List Nat) (lines : List (Option (List Char))) :
    Except HeaderError (List (List Nat) × List (Option (List Char))) := do
  let first ← lineText lines.head?
  let fields := words (← unmark (.noHeader first) first)
  let slots ← readSlots names widths [] fields
  if slots.length ≠ widths.length then
    throw (.format (.slotCount widths.length slots.length))
  let blocks ← readBlocks names slots [] lines.tail
  let vars := (List.range widths.length).map fun slot => (blocks.lookup slot).getD []
  return (vars, lines.drop (slots.length + 1))

end Header

end Factbase.Relation
