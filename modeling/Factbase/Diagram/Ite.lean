import Factbase.Diagram.Manager
import Factbase.Diagram.Triple

/-!
# If-then-else and the operations derived from it

`Manager.ite` builds the diagram of "`g` where `f`, else `h`". It descends by the topmost
variable of the three, the low cofactors first, and keeps every result in the cache under its
regular triple. Every step down takes at least one of the three edges to a child, so a descent
never comes back to a triple, and the number of triples bounds its depth.
-/

namespace Factbase.Diagram.Manager

/-- If-then-else with a bound on the depth. -/
def iteWithin : Nat → Edge → Edge → Edge → Op Edge
  | 0, _, _, _ => throw .endless
  | depth + 1, f, g, h => do
    let asked : Triple := ⟨f, g, h⟩
    if let some answer := asked.settled? then
      return answer
    let absorbed := asked.absorb
    if let some answer := absorbed.settled? then
      return answer
    let flipped ← ask (·.complement f)
    if absorbed.isComplement then
      return flipped
    let i ← ask (·.level absorbed.cond)
    let j ← ask (·.level absorbed.yes)
    let k ← ask (·.level absorbed.no)
    let (t, flip) := (absorbed.raise i j k).regular
    let key := OpKey.choose t.cond t.yes t.no
    if let some known ← lookUp key then
      return known.complementIf flip
    let v ← ask (·.order.varAt (min i (min j k)))
    let (f₀, f₁) ← ask (·.cofactors t.cond v)
    let (g₀, g₁) ← ask (·.cofactors t.yes v)
    let (h₀, h₁) ← ask (·.cofactors t.no v)
    let low ← iteWithin depth f₀ g₀ h₀
    let high ← iteWithin depth f₁ g₁ h₁
    let result ← mkNode v low high
    remember key result
    return result.complementIf flip

/-- `g` where `f` is true, `h` where it is false. -/
def ite (f g h : Edge) : Op Edge := do
  let edges := 2 * (← get).numNodes + 3
  iteWithin (edges * edges * edges) f g h

/-- Conjunction. -/
def conj (f g : Edge) : Op Edge := ite f g .zero

/-- Disjunction. -/
def disj (f g : Edge) : Op Edge := ite f .one g

/-- Exclusive disjunction. -/
def exclusive (f g : Edge) : Op Edge := do
  ite f (← ask (·.complement g)) g

/-- `f` without `g`. -/
def diff (f g : Edge) : Op Edge := ite g .zero f

/-- The conjunction of a list, from the left. -/
def conjAll (fs : List Edge) : Op Edge := fs.foldlM conj .one

end Factbase.Diagram.Manager
