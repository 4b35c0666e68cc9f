import Factbase.Diagram.Cache
import Factbase.Diagram.Edge
import Factbase.Diagram.Order
import Factbase.Diagram.Table
import Factbase.Numeric.Pairing

/-!
# Managers

A manager owns the nodes of its diagrams, an operation cache and a variable order. Nodes are
only ever appended. The high edge of a stored node is never complemented, and no node has equal
children: `Manager.mkNode` moves a complement outwards and answers with the child where both
agree.

* questions about a manager are functions `Manager → Except Fault α`;
* operations that may store nodes or cache results are programs in `Op`, which keep the manager
  reached so far where they fail.
-/

namespace Factbase.Diagram

/-! ## 1. Nodes and managers -/

/-- A decision on a variable. -/
structure Node where
  var : Nat
  low : Edge
  high : Edge
deriving DecidableEq, Repr, Inhabited

instance : Hashable Node where
  hash n := Pairing.three n.var.toUInt64 n.low.word n.high.word

/-- The leaf, stored at index 1; no question reads its fields as a decision. -/
def Node.leaf : Node := ⟨0, .zero, .zero⟩

/-- An operation whose result is worth keeping. -/
inductive OpKey where
  | choose (f g h : Edge)
  | project (f vars : Edge)
deriving DecidableEq, Repr, Inhabited

instance : Hashable OpKey where
  hash
    | .choose f g h => Pairing.three f.word g.word h.word
    | .project f vars => Pairing.szudzik (Pairing.szudzik f.word vars.word) 1

/-- A store of diagrams over one variable order. -/
structure Manager where
  nodes : Table Node
  cache : Cache OpKey Edge
  order : Order

/-- A program over a manager. -/
abbrev Op := EStateM Fault Manager

namespace Manager

/-- A manager with the leaf and no variables. -/
def create (storageBits cacheBits : Nat) (minFree : Float) : Except Fault Manager := do
  let nodes ← Table.create storageBits minFree
  let cache ← Cache.create cacheBits
  return ⟨(nodes.add Node.leaf).2, cache, .empty⟩

/-! ## 2. Questions -/

/-- The number of stored nodes, the leaf included. -/
def numNodes (m : Manager) : Nat := m.nodes.size

/-- The number of variables. -/
def numVars (m : Manager) : Nat := m.order.size

/-- A one-line summary. -/
def summary (m : Manager) : String :=
  s!"Bdd \x7b capacity: {m.nodes.capacity}, size: {m.numNodes}, num_vars: {m.numVars} \x7d"

/-- The node at an index. -/
def node (m : Manager) (index : Nat) : Except Fault Node := m.nodes.value index

/-- The complement of an edge. Codes have 32 bits as long as the nodes need no more, so that the
least code, which has no counterpart, is complemented only where it leads to a node. -/
def complement (m : Manager) (e : Edge) : Except Fault Edge :=
  if e = .least ∧ m.numNodes < e.index then .error .overflow else .ok (-e)

/-- The complement of `e` where `flip` holds, else `e`. -/
def complementIf (m : Manager) (flip : Bool) (e : Edge) : Except Fault Edge :=
  if flip then m.complement e else .ok e

/-- The child of an edge where its variable is false. -/
def low (m : Manager) (e : Edge) : Except Fault Edge := do
  m.complementIf e.negated (← m.node e.index).low

/-- The child of an edge where its variable is true. -/
def high (m : Manager) (e : Edge) : Except Fault Edge := do
  m.complementIf e.negated (← m.node e.index).high

/-- The level of the variable that an edge tests, `none` for the leaves. -/
def level? (m : Manager) (e : Edge) : Except Fault (Option Nat) := do
  if e.isTerminal then
    return none
  return some (← m.order.levelOf (← m.node e.index).var)

/-- The level of an edge, the leaves standing below every variable. -/
def level (m : Manager) (e : Edge) : Except Fault Nat := do
  return (← m.level? e).getD m.numVars

/-- Both children of `e` with respect to `v`, which must not stand below the variable that `e`
tests. -/
def cofactors (m : Manager) (e : Edge) (v : Nat) : Except Fault (Edge × Edge) := do
  if v = 0 then
    throw .zeroVariable
  if e.isTerminal then
    return (e, e)
  if (← m.order.levelOf v) < (← m.level e) then
    return (e, e)
  if (← m.node e.index).var ≠ v then
    throw .assertion
  return (← m.low e, ← m.high e)

/-! ## 3. Steps of a program -/

/-- Ask a question. -/
def ask {α : Type} (question : Manager → Except Fault α) : Op α := fun m =>
  match question m with
  | .ok a => .ok a m
  | .error fault => .error fault m

/-- The index of a node, stored where it is new. -/
def intern (n : Node) : Op Nat := fun ⟨nodes, cache, order⟩ =>
  match nodes.put n with
  | (.ok index, nodes) => .ok index ⟨nodes, cache, order⟩
  | (.error fault, nodes) => .error fault ⟨nodes, cache, order⟩

/-- Look up an earlier result. -/
def lookUp (key : OpKey) : Op (Option Edge) := fun ⟨nodes, cache, order⟩ =>
  let (found, cache) := cache.get key
  .ok found ⟨nodes, cache, order⟩

/-- Keep a result. -/
def remember (key : OpKey) (result : Edge) : Op Unit := fun ⟨nodes, cache, order⟩ =>
  .ok () ⟨nodes, cache.insert key result, order⟩

/-- Append fresh variables at the bottom of the order; the first of them is the result. Their
number is taken as a 32-bit word. -/
def extendVars (count : Nat) : Op Nat := fun ⟨nodes, cache, order⟩ =>
  let first := order.size + 1
  .ok first ⟨nodes, cache, order.extend (count % twoPow 32)⟩

/-- Rearrange the variables from the top, which only an empty manager allows. -/
def setVarOrder (vs : List Nat) : Op Unit := fun m =>
  if m.numNodes ≠ 1 then
    .error .orderTooLate m
  else
    match Order.ofList m.numVars vs with
    | .ok order => .ok () { m with order }
    | .error fault => .error fault m

/-! ## 4. Building diagrams -/

/-- The edge to a node whose high child is not complemented. -/
def shared (v : Nat) (low high : Edge) : Op Edge := do
  if low = high then
    return low
  return .ofIndex (← intern ⟨v, low, high⟩)

/-- The edge that decides on `v` between `low` and `high`. -/
def mkNode (v : Nat) (low high : Edge) : Op Edge := do
  if v = 0 then
    throw .zeroVariable
  if high.negated then
    let flippedLow ← ask (·.complement low)
    let flippedHigh ← ask (·.complement high)
    return -(← shared v flippedLow flippedHigh)
  shared v low high

/-- The edge of a variable. -/
def mkVar (v : Nat) : Op Edge := do
  if v = 0 then
    throw .zeroVariable
  if (← get).numVars < v then
    throw (.unallocated v)
  mkNode v .zero .one

/-- Literals from the deepest level up, equal levels in the given order. A literal by itself
needs no place and is not looked up. -/
def deepestFirst (m : Manager) (literals : List Int) : Except Fault (List Int) := do
  if literals.length < 2 then
    return literals
  let placed ← literals.mapM fun l => return (← m.order.levelOf l.natAbs, l)
  return (placed.mergeSort fun a b => decide (b.1 ≤ a.1)).map (·.2)

/-- Put one literal on top of a cube. -/
def addLiteral (cube : Edge) (l : Int) : Op Edge :=
  if l < 0 then mkNode l.natAbs cube .zero else mkNode l.natAbs .zero cube

/-- The conjunction of literals, `v` for a variable and `-v` for its complement, built from the
bottom up. -/
def cube (literals : List Int) : Op Edge := do
  if literals.contains 0 then
    throw .zeroVariable
  (← ask (deepestFirst · literals)).foldlM addLiteral .one

/-- The conjunction of variables, which stands for their set. -/
def varCube (vs : List Nat) : Op Edge := cube (vs.map Int.ofNat)

/-- The literals that 32-bit words are read as. -/
def literalsOfWords (words : List Nat) : List Int :=
  words.map fun (w : Nat) => Int.bmod w (twoPow 32)

/-- The set of variables that are given as 32-bit words and read as signed literals. -/
def varSetOfWords (words : List Nat) : Op Edge := cube (literalsOfWords words)

end Manager

end Factbase.Diagram
