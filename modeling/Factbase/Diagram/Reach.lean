import Factbase.Diagram.Manager

/-!
# Reachable nodes

`Manager.reachable roots` lists the indices of all nodes that the roots lead to, the leaf
included, in increasing order. The sweep goes breadth first: a node is marked when it is met and
its children join the end of the line. Every node is expanded once, so roots and two children for
every node bound the length of the sweep.
-/

namespace Factbase.Diagram.Manager

/-- A sweep in progress: the nodes met so far, the front of the line, and its end in reverse. -/
structure Sweep where
  marked : Array Bool
  front : List Nat
  back : List Nat

/-- The next index in line. -/
def Sweep.pop? (s : Sweep) : Option (Nat × Sweep) :=
  match s.front with
  | i :: front => some (i, { s with front })
  | [] =>
    match s.back.reverse with
    | i :: front => some (i, { s with front, back := [] })
    | [] => none

/-- Take up to `steps` indices from the line. -/
def sweep (m : Manager) : Nat → Sweep → Except Fault (Array Bool)
  | 0, s => .ok s.marked
  | steps + 1, s =>
    match s.pop? with
    | none => .ok s.marked
    | some (i, s) =>
      if s.marked[i]?.getD false then
        m.sweep steps s
      else do
        let node ← m.node i
        m.sweep steps
          { s with
            marked := s.marked.setIfInBounds i true
            back := node.high.index :: node.low.index :: s.back }

/-- The indices reachable from `roots`, the leaf included, in increasing order. -/
def reachable (m : Manager) (roots : List Edge) : Except Fault (List Nat) := do
  let unmarked : Array Bool := Array.replicate (m.numNodes + 1) false
  let marked ← m.sweep (roots.length + 2 * m.numNodes + 1)
    ⟨unmarked.setIfInBounds 1 true, roots.map Edge.index, []⟩
  return (List.range marked.size).filter fun i => marked[i]?.getD false

/-- The number of nodes of a diagram, the leaf included. -/
def diagramSize (m : Manager) (f : Edge) : Except Fault Nat := do
  return (← m.reachable [f]).length

end Factbase.Diagram.Manager
