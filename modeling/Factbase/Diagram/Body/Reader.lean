import Factbase.Diagram.Body
import Factbase.Diagram.Ite
import Factbase.Files
import Factbase.Text.Blank
import Factbase.Text.Lines
import Factbase.Text.Numeral
import Std.Data.HashSet

/-!
# Reading bodies

A body is read in two stages. `Body.read` checks the text line by line against the lines before
it and stops at the first thing wrong; it keeps the decisions found up to there. `Manager.build`
then rebuilds those decisions from the first on. Blank lines count but say nothing, and what
stands behind the root is not looked at.

The variables of the text are the writer's. The reader hands in what each of them is here;
a variable without a counterpart is an error.
-/

namespace Factbase.Diagram

open Text

/-! ## 1. Errors -/

/-- What is wrong with a body. -/
inductive BodyProblem where
  | missingHeader
  | headerShape (header : List Char)
  | badNodeCount
  | badVariableCount
  | unexpectedEnd
  | fieldCount (found : Nat)
  | badField (field : List Char) (error : NumeralError)
  | invalidId (id : Int)
  | repeatedId (id : Nat)
  | negativeVariable
  | variableOutside (v count : Nat)
  | unmapped (v : Nat)
  | zeroEdge
  | unknownNode (id : Nat)
  | missingRoot
  | badRoot (root : List Char)
deriving DecidableEq, Repr, Inhabited

/-- The text of a problem. -/
def BodyProblem.message : BodyProblem → String
  | .missingHeader => "missing body header"
  | .headerShape header => s!"expected '<nodes> <vars>', got '{String.ofList header}'"
  | .badNodeCount => "bad node count"
  | .badVariableCount => "bad variable count"
  | .unexpectedEnd => "unexpected end of body"
  | .fieldCount found => s!"expected 4 fields, got {found}"
  | .badField field error => s!"bad field '{String.ofList field}': {error.message}"
  | .invalidId id => s!"invalid node id {id}"
  | .repeatedId id => s!"node {id} is defined twice"
  | .negativeVariable => "negative variable"
  | .variableOutside v count => s!"variable {v} is outside 1..={count}"
  | .unmapped v => s!"variable {v} is not mapped"
  | .zeroEdge => "edge 0 is not a node"
  | .unknownNode id => s!"edge to unknown node {id}"
  | .missingRoot => "missing root"
  | .badRoot root => s!"bad root '{String.ofList root}'"

/-- Why a body cannot be read. -/
inductive BodyError where
  | access (error : AccessError)
  /-- The line counts from 1; 0 stands for the end of the text. -/
  | parse (line : Nat) (problem : BodyProblem)
deriving DecidableEq, Repr, Inhabited

/-- The text of an error. -/
def BodyError.message : BodyError → String
  | .access error => s!"I/O error: {error.word}"
  | .parse line problem => s!"parse error on body line {line}: {problem.message}"

namespace Body

/-! ## 2. Single lines -/

/-- A line with its number, `none` where it is not UTF-8. -/
abbrev NumberedLine := Nat × Option (List Char)

/-- Whether a line holds white space only. -/
def isBlankLine (line : Option (List Char)) : Bool :=
  match line with
  | some cs => cs.all isBlank
  | none => false

/-- The lines that say something, numbered from 1. -/
def numbered (lines : List (Option (List Char))) : List NumberedLine :=
  (lines.mapIdx fun i line => (i + 1, line)).filter fun line => !isBlankLine line.2

/-- The text of a line. -/
def lineText (line : NumberedLine) : Except BodyError (List Char) :=
  match line.2 with
  | some cs => .ok cs
  | none => .error (.access .invalidData)

/-- The counts of nodes and of variables. -/
def readHeader (n : Nat) (cs : List Char) : Except BodyError (Nat × Nat) :=
  match words cs with
  | [nodes, vars] =>
    match readNat .word64 nodes, readNat .word32 vars with
    | .ok nodes, .ok vars => .ok (nodes, vars)
    | .error _, _ => .error (.parse n .badNodeCount)
    | .ok _, .error _ => .error (.parse n .badVariableCount)
  | _ => .error (.parse n (.headerShape cs))

/-- One decision of a body, its variable being the reader's. -/
structure Step where
  id : Nat
  target : Nat
  low : Int
  high : Int
deriving DecidableEq, Repr, Inhabited

/-- The ids of the decisions so far. -/
abbrev Known := Std.HashSet Nat

/-- Check that an edge leads to a leaf or to a known decision. -/
def checkEdge (known : Known) (n : Nat) (edge : Int) : Except BodyError Int :=
  match edge.natAbs with
  | 0 => .error (.parse n .zeroEdge)
  | 1 => .ok edge
  | id => if known.contains id then .ok edge else .error (.parse n (.unknownNode id))

/-- Read a field of a line. -/
def readField (n : Nat) (field : List Char) : Except BodyError Int :=
  match readInt .signed32 field with
  | .ok value => .ok value
  | .error error => .error (.parse n (.badField field error))

/-- Read the line of a decision, the fields from left to right. -/
def readStep (remap : Nat → Option Nat) (varCount : Nat) (known : Known) (n : Nat)
    (cs : List Char) : Except BodyError Step := do
  match words cs with
  | [idField, varField, lowField, highField] =>
    let id ← readField n idField
    if id < 2 then
      throw (.parse n (.invalidId id))
    if known.contains id.toNat then
      throw (.parse n (.repeatedId id.toNat))
    let v ← readField n varField
    if v < 0 then
      throw (.parse n .negativeVariable)
    if v = 0 ∨ varCount < v then
      throw (.parse n (.variableOutside v.toNat varCount))
    let some target := remap v.toNat | throw (.parse n (.unmapped v.toNat))
    let low ← checkEdge known n (← readField n lowField)
    let high ← checkEdge known n (← readField n highField)
    return ⟨id.toNat, target, low, high⟩
  | fields => throw (.parse n (.fieldCount fields.length))

/-- Read the line of the root. -/
def readRoot (known : Known) (n : Nat) (cs : List Char) : Except BodyError Int :=
  match readInt .signed32 (trim cs) with
  | .ok edge => checkEdge known n edge
  | .error _ => .error (.parse n (.badRoot cs))

/-! ## 3. Whole bodies -/

/-- What was found in a text: decisions, and the root or the first thing wrong. -/
structure Reading where
  steps : List Step
  root : Except BodyError Int

/-- Read what follows the header: `count` decisions, then the root. -/
def readLines (remap : Nat → Option Nat) (varCount : Nat) :
    Nat → Known → List NumberedLine → Reading
  | 0, known, lines =>
    match lines with
    | [] => ⟨[], .error (.parse 0 .missingRoot)⟩
    | line :: _ => ⟨[], do readRoot known line.1 (← lineText line)⟩
  | count + 1, known, lines =>
    match lines with
    | [] => ⟨[], .error (.parse 0 .unexpectedEnd)⟩
    | line :: lines =>
      match (do readStep remap varCount known line.1 (← lineText line)) with
      | .error error => ⟨[], .error error⟩
      | .ok step =>
        let reading := readLines remap varCount count (known.insert step.id) lines
        ⟨step :: reading.steps, reading.root⟩

/-- Read a body. -/
def read (remap : Nat → Option Nat) (lines : List (Option (List Char))) : Reading :=
  match numbered lines with
  | [] => ⟨[], .error (.parse 0 .missingHeader)⟩
  | line :: lines =>
    match (do readHeader line.1 (← lineText line)) with
    | .error error => ⟨[], .error error⟩
    | .ok (count, varCount) => readLines remap varCount count ∅ lines

/-! ## 4. Rebuilding -/

/-- The edges of the decisions that are rebuilt. -/
abbrev Built := Std.HashMap Nat Edge

/-- The edge for a signed id. -/
def Built.decode (built : Built) (edge : Int) : Edge :=
  let e : Edge := if edge.natAbs = 1 then .one else built.getD edge.natAbs .one
  e.complementIf (decide (edge < 0))

end Body

namespace Manager

/-- Rebuild one decision, which need not stand above its children. -/
def buildStep (built : Body.Built) (step : Body.Step) : Op Body.Built := do
  let e ← ite (← mkVar step.target) (built.decode step.high) (built.decode step.low)
  return built.insert step.id e

/-- Rebuild what was read. -/
def build (reading : Body.Reading) : Op (Except BodyError Edge) := do
  let built ← reading.steps.foldlM buildStep ∅
  return reading.root.map built.decode

/-- Read a body into a manager. -/
def readBody (remap : Nat → Option Nat) (lines : List (Option (List Char))) :
    Op (Except BodyError Edge) :=
  build (Body.read remap lines)

end Manager

end Factbase.Diagram
