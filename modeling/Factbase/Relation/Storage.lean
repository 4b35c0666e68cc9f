import Factbase.Relation.Tuples

/-!
# Relations in files

The file of a relation holds a header with its slots and their variables, and the body of its
diagram. It can be read by a relation that lists the slots in another order, lays them out
differently and has wider ones: the file's bits are aligned at the least significant end, and
the bits that the file lacks are zero. Tuples outside the present domains are dropped.

* `load`, `writeTo`, `save`: the diagram;
* `print`: the tuples as text, in the domains' canonical texts.
-/

namespace Factbase.Relation

open Diagram

/-! ## 1. Loading -/

/-- How a file's variables fit a layout. -/
structure Fit where
  /-- The counterpart of every variable of the file. -/
  remap : Std.HashMap Nat Nat
  /-- The literals of the bits that the file lacks. -/
  fixed : List Int
  /-- Slots that are wider now, with their widths then and now. -/
  widened : List (Nat × Nat × Nat)

/-- Fit the file's variables of every slot to a layout. -/
def fit (layout : Layout) (fileVars : List (List Nat)) : Fit :=
  let slots := layout.slots.zip fileVars
  let extra := slots.map fun (vars, saved) =>
    (vars.take (vars.length - saved.length), vars.drop (vars.length - saved.length), saved)
  { remap := .ofList (extra.flatMap fun (_, vars, saved) => saved.zip vars)
    fixed := extra.flatMap fun (missing, _, _) => missing.map fun (v : Nat) => -(v : Int)
    widened := slots.zipIdx.filterMap fun ((vars, saved), slot) =>
      if saved.length < vars.length then some (slot, saved.length, vars.length) else none }

/-- Rebuild a body and cut it down to the domains. The result is the diagram, and whether
anything was cut off. -/
def readContents (layout : Layout) (fit : Fit) (lines : List (Option (List Char))) :
    Op (Except BodyError (Edge × Bool)) := do
  match ← Manager.readBody (fit.remap[·]?) lines with
  | .error error => return .error error
  | .ok body =>
    let f ← Manager.conj body (← Manager.cube fit.fixed)
    let inside ← Manager.conj f (← layout.inDomains)
    return .ok (inside, inside ≠ f)

/-- Open from a file. The answer has the warnings on the way, also where it is an error. -/
def load (cat : Catalog) (env : Environment) (files : Files) (folder : Path) :
    RelationM (Warned (Except RelationError Unit)) := fun r =>
  match r.prepare cat env with
  | .error fault => .error (.fault fault) r
  | .ok ⟨schema, warnings, manager, layout⟩ =>
    let path := folder.join (diagramFile schema.name)
    let refuse (problem : RelationProblem) (more : List Warning) :=
      .ok ⟨.error ⟨schema.name, problem⟩, warnings ++ more⟩ r
    match files.read? path with
    | .error error => refuse (.access path.text error) []
    | .ok data =>
      let lines := Text.byteLines data
      match Header.read schema.signature.names (layout.slots.map List.length) lines with
      | .error (.access error) => refuse (.access path.text error) []
      | .error (.format problem) => refuse (.format path.text problem) []
      | .ok (fileVars, bodyLines) =>
        let fit := fit layout fileVars
        let widened := fit.widened.map fun (slot, saved, now) =>
          .widened schema.name slot saved now
        match readContents layout fit bodyLines manager with
        | .error fault _ => .error (.fault fault) r
        | .ok (.error error) _ => refuse (.body path.text error) widened
        | .ok (.ok (root, dropped)) manager =>
          let more := if dropped then [.dropped schema.name path.text] else []
          .ok ⟨.ok (), warnings ++ widened ++ more⟩
            { r with stage := .opened schema ⟨manager, root, layout⟩ }

/-! ## 2. Writing -/

/-- A program over a relation and the files. -/
abbrev StorageM := EStateM Failure (Relation × Files)

/-- A program over the relation alone. -/
def onRelation {α : Type} (act : RelationM α) : StorageM α := fun (r, files) =>
  match act r with
  | .ok a r => .ok a (r, files)
  | .error failure r => .error failure (r, files)

/-- Create a file of the relation. -/
def writeFile (path : Path) (text : String) : StorageM Unit := fun (r, files) =>
  match files.writeText? path text with
  | .ok files => .ok () (r, files)
  | .error error => .error (.error ⟨r.name, .access path.text error⟩) (r, files)

/-- The text of a relation's file. -/
def fileText (schema : Schema) (root : Edge) (layout : Layout) (m : Manager) :
    Except Fault String := do
  return Header.render schema.signature.names layout.slots ++ (← m.body root).render

/-- Write the diagram and stay open. -/
def writeTo (folder : Path) : StorageM Unit := do
  let (schema, _, _) ← onRelation opening
  let text ← onRelation (onManager fun root layout =>
    Manager.ask (fileText schema root layout))
  writeFile (folder.join (diagramFile schema.name)) text

/-- Write the diagram and close. -/
def save (folder : Path) : StorageM Unit := do
  writeTo folder
  onRelation close

/-! ## 3. Printing -/

/-- The line of a tuple. -/
def tupleLine (cat : Catalog) (schema : Schema) (t : Tuple) : Except Fault String := do
  let texts ← t.items.zipIdx.mapM fun (item, slot) =>
    (schema.domain cat slot).canonAt item.toNat
  return "<" ++ ",".intercalate texts ++ ">\n"

/-- The lines of tuples up to the first that has none, and why that one has none. -/
def tupleLines (cat : Catalog) (schema : Schema) : List Tuple → List String × Option Fault
  | [] => ([], none)
  | t :: ts =>
    match tupleLine cat schema t with
    | .error fault => ([], some fault)
    | .ok line =>
      let (lines, fault) := tupleLines cat schema ts
      (line :: lines, fault)

/-- Write every tuple as a line and close. The file is created before anything else. -/
def print (cat : Catalog) (folder : Path) : StorageM Unit := do
  let path := folder.join (textFile (← get).1.name)
  writeFile path ""
  let (schema, _, _) ← onRelation opening
  let tuples ← onRelation (do takeTuples (← tuples) none)
  let (lines, fault) := tupleLines cat schema tuples
  writeFile path (String.join lines)
  match fault with
  | some fault => throw (.fault fault)
  | none => onRelation close

end Factbase.Relation
