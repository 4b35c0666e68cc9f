import Factbase.Diagram.Manager
import Std.Data.HashMap

/-!
# Bodies: diagrams as text

A body lists the decisions of one diagram, children before parents, under ids from 2 on. Edges
are signed ids, with `1` for true and `-1` for false. The text has a header with the number of
lines and of variables, one line `id var low high` for every decision, and the root edge.

* `Manager.body` numbers the nodes of a diagram in post-order, low children first;
* `Body.render` writes the text.
-/

namespace Factbase.Diagram

/-- One decision of a body. -/
structure BodyLine where
  id : Nat
  var : Nat
  low : Int
  high : Int
deriving DecidableEq, Repr, Inhabited

/-- A diagram with ids of its own. -/
structure Body where
  numVars : Nat
  lines : List BodyLine
  root : Int
deriving DecidableEq, Repr, Inhabited

namespace BodyLine

/-- The text of a line. -/
def render (line : BodyLine) : String :=
  s!"{line.id} {line.var} {line.low} {line.high}\n"

end BodyLine

namespace Body

/-- The text of a body. -/
def render (body : Body) : String :=
  s!"{body.lines.length} {body.numVars}\n"
    ++ String.join (body.lines.map BodyLine.render)
    ++ s!"{body.root}\n"

/-- The nodes numbered so far: their ids by index, and their indices in the order of the ids,
the latest first. -/
structure Ids where
  idOf : Std.HashMap Nat Nat := ∅
  met : List Nat := []

/-- The signed id of an edge, whose node has a number or is the leaf. -/
def Ids.encode (ids : Ids) (e : Edge) : Int :=
  let id : Nat := if e.isTerminal then 1 else ids.idOf.getD e.index 0
  if e.negated then -id else id

end Body

namespace Manager

/-- Number a node after its children, with a bound on the depth. -/
def numberWithin (m : Manager) : Nat → Edge → Body.Ids → Except Fault Body.Ids
  | 0, _, _ => throw .endless
  | depth + 1, e, ids => do
    if e.isTerminal || ids.idOf.contains e.index then
      return ids
    let node ← m.node e.index
    let ids ← m.numberWithin depth node.low ids
    let ids ← m.numberWithin depth node.high ids
    return ⟨ids.idOf.insert e.index (ids.met.length + 2), e.index :: ids.met⟩

/-- The line of a numbered node. -/
def bodyLine (m : Manager) (ids : Body.Ids) (index : Nat) : Except Fault BodyLine := do
  let node ← m.node index
  return ⟨ids.idOf.getD index 0, node.var, ids.encode node.low, ids.encode node.high⟩

/-- The body of a diagram. -/
def body (m : Manager) (f : Edge) : Except Fault Body := do
  let ids ← m.numberWithin (m.numNodes + 1) f {}
  let lines ← ids.met.reverse.mapM (m.bodyLine ids)
  return ⟨m.numVars, lines, ids.encode f⟩

end Manager

end Factbase.Diagram
