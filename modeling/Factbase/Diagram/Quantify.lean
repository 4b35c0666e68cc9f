import Factbase.Diagram.Ite

/-!
# Existential quantification

`Manager.project f vars` is true where `f` is true for some values of the variables in `vars`,
which is a set of variables in the form of their conjunction. Every step down takes `f` or `vars`
to a child, so a descent never comes back to a pair, and the number of pairs bounds its depth.
-/

namespace Factbase.Diagram.Manager

/-- Quantification with a bound on the depth. -/
def projectWithin : Nat → Edge → Edge → Op Edge
  | 0, _, _ => throw .endless
  | depth + 1, f, vars => do
    if f.isTerminal || vars = .one then
      return f
    if vars = .zero then
      throw .falseVariableSet
    let levelF ← ask (·.level f)
    let levelV ← ask (·.level vars)
    if levelV < levelF then
      -- `f` does not depend on the topmost variable of the set.
      projectWithin depth f (← ask (·.high vars))
    else
      let key := OpKey.project f vars
      if let some known ← lookUp key then
        return known
      let f₀ ← ask (·.low f)
      let f₁ ← ask (·.high f)
      let result ←
        if levelF = levelV then do
          let rest ← ask (·.high vars)
          let low ← projectWithin depth f₀ rest
          if low = .one then
            pure low
          else
            disj low (← projectWithin depth f₁ rest)
        else do
          let low ← projectWithin depth f₀ vars
          let high ← projectWithin depth f₁ vars
          mkNode (← ask (·.node f.index)).var low high
      remember key result
      return result

/-- `f` with the variables of the cube `vars` quantified away. -/
def project (f vars : Edge) : Op Edge := do
  let edges := 2 * (← get).numNodes + 3
  projectWithin (edges * edges) f vars

end Factbase.Diagram.Manager
