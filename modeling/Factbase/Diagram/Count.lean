import Factbase.Diagram.Manager
import Std.Data.HashMap

/-!
# Model counting

`Manager.satCount f n` counts the assignments of `n` variables that satisfy `f`. Each child
covers half of the assignments of the tested variable, so a node's count is half the sum of its
children's, and a complement counts the rest.
-/

namespace Factbase.Diagram.Manager

/-- Counts known so far, by edge. -/
abbrev Counts := Std.HashMap Edge Nat

/-- Count with a bound on the depth; `total` is the number of all assignments. -/
def countWithin (m : Manager) (total : Nat) : Nat → Edge → StateT Counts (Except Fault) Nat
  | 0, _ => throw .endless
  | depth + 1, e => do
    if e = .zero then
      return 0
    if e = .one then
      return total
    if let some known := (← get)[e]? then
      return known
    let node ← m.node e.index
    let low ← m.countWithin total depth node.low
    let high ← m.countWithin total depth node.high
    let half := (low + high) / 2
    let count := if e.negated then total - half else half
    modify (·.insert e count)
    return count

/-- The number of assignments of `n` variables that satisfy `f`, which may depend on those
variables only. -/
def satCount (m : Manager) (f : Edge) (n : Nat) : Except Fault Nat :=
  (m.countWithin (twoPow n) (m.numNodes + 1) f).run' ∅

end Factbase.Diagram.Manager
