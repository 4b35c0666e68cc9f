import Factbase.Diagram.Manager

/-!
# Path profiles

A profile says for every level what a path from a root to true asks of it: 0, 1, or nothing. The
walk is depth first, low branches before high ones, and keeps the current path on two stacks:
nodes left through their low branch that still owe a visit to their high branch, and nodes whose
high branch is being explored. Levels increase along a path, so that the deeper of the two tops
is the most recent node, and no path is longer than the number of levels.
-/

namespace Factbase.Diagram

/-- What a path asks of a level. -/
inductive Bit where
  | zero
  | one
  | free
deriving DecidableEq, Repr, Inhabited

/-- The sign of a bit in text. -/
def Bit.sign : Bit → Char
  | .zero => '0'
  | .one => '1'
  | .free => '-'

/-- A depth-first walk over the paths to true; stacks have their top in front. -/
structure PathWalk where
  root : Edge
  started : Bool
  profile : Array Bit
  pendingHigh : List Edge
  inHigh : List Edge

namespace PathWalk

/-- The walk before its first path. -/
def start (m : Manager) (f : Edge) : PathWalk :=
  ⟨f, false, Array.replicate m.numVars .free, [], []⟩

/-- The level of an edge, the leaves standing below every level. -/
def levelIn (m : Manager) (w : PathWalk) (e : Edge) : Except Fault Nat := do
  return (← m.level? e).getD w.profile.size

/-- Set the bit of a level. -/
def setBit (w : PathWalk) (level : Nat) (bit : Bit) : Except Fault PathWalk :=
  if level < w.profile.size then
    .ok { w with profile := w.profile.setIfInBounds level bit }
  else
    .error .outOfBounds

/-- Free the levels from `first` up to the level of `e`. -/
def skipTo (m : Manager) (w : PathWalk) (first : Nat) (e : Edge) : Except Fault PathWalk := do
  let stop ← w.levelIn m e
  if stop < first ∨ w.profile.size < stop then
    throw .outOfBounds
  let freed := (List.range' first (stop - first)).foldl (fun p i => p.setIfInBounds i .free)
    w.profile
  return { w with profile := freed }

/-- Take the low branch of `e` at `level`, owing its high branch. -/
def goLow (m : Manager) (w : PathWalk) (e low : Edge) (level : Nat) : Except Fault PathWalk := do
  let w ← w.setBit level .zero
  skipTo m { w with pendingHigh := e :: w.pendingHigh } (level + 1) low

/-- Take the high branch of `e` at `level`. -/
def goHigh (m : Manager) (w : PathWalk) (e high : Edge) (level : Nat) :
    Except Fault PathWalk := do
  let w ← w.setBit level .one
  skipTo m { w with inHigh := e :: w.inHigh } (level + 1) high

/-- Follow low branches, high ones where low is false, down to true. -/
def descend (m : Manager) : Nat → PathWalk → Edge → Except Fault PathWalk
  | 0, _, _ => .error .endless
  | steps + 1, w, e => do
    if e.isTerminal then
      if e = .one then
        return w
      throw .assertion
    let level ← w.levelIn m e
    let low ← m.low e
    if low ≠ .zero then
      descend m steps (← w.goLow m e low level) low
    else
      let high ← m.high e
      descend m steps (← w.goHigh m e high level) high

/-- Drop the nodes of a stack down to the first one above `level`. -/
def dropBelow (m : Manager) (w : PathWalk) (level : Nat) : List Edge → Except Fault (List Edge)
  | [] => .ok []
  | e :: stack => do
    if (← w.levelIn m e) < level then
      return e :: stack
    w.dropBelow m level stack

/-- Switch the deepest pending node whose high branch is not false to that branch. The result
is the walk and the node to go on from. -/
def backtrack (m : Manager) : List Edge → PathWalk → Except Fault (PathWalk × Option Edge)
  | [], w => .ok ({ w with pendingHigh := [], inHigh := [] }, none)
  | e :: pending, w => do
    let level ← w.levelIn m e
    let active ← w.dropBelow m level w.inHigh
    let high ← m.high e
    let w := { w with pendingHigh := pending, inHigh := active }
    if high = .zero then
      backtrack m pending w
    else
      return (← w.goHigh m e high level, some high)

/-- Go on to the next path; the result is its profile. -/
def next (m : Manager) (w : PathWalk) : Except Fault (Option (Array Bit) × PathWalk) := do
  let steps := w.profile.size + 2
  if w.started then
    match ← backtrack m w.pendingHigh w with
    | (w, none) => return (none, w)
    | (w, some e) =>
      let w ← descend m steps w e
      return (some w.profile, w)
  else
    let w := { w with started := true }
    if w.root = .zero then
      return (none, w)
    let w ← descend m steps (← w.skipTo m 0 w.root) w.root
    return (some w.profile, w)

/-- The profiles of the next paths, at most `limit`, in front of the reverse of `found`. -/
def takeOnto (m : Manager) : Nat → PathWalk → List (Array Bit) → Except Fault (List (Array Bit))
  | 0, _, found => .ok found.reverse
  | limit + 1, w, found => do
    match ← w.next m with
    | (none, _) => return found.reverse
    | (some profile, w) => takeOnto m limit w (profile :: found)

/-- All profiles of `f`. Different paths differ at a level, so that there are at most as many as
assignments. -/
def all (m : Manager) (f : Edge) : Except Fault (List (Array Bit)) :=
  takeOnto m (twoPow m.numVars) (start m f) []

end PathWalk

end Factbase.Diagram
