import Factbase.Diagram.Profile
import Factbase.Tuple

/-!
# Cursors

A cursor lists the tuples that a diagram encodes. A slot is a list of levels, its bits from the
most significant one on. Each profile is expanded over the *care* levels that it leaves free:
they count in binary, the last of them fastest. A slot with a free level outside the care levels
is not determined.
-/

namespace Factbase.Diagram

/-- An enumeration in progress. -/
structure Cursor where
  walk : PathWalk
  slots : List (List Nat)
  care : List Nat
  /-- The current profile, its free care levels set. -/
  assignment : Array Bit
  /-- The free care levels of the current profile, the last one first. -/
  counter : List Nat
  /-- Whether the current profile has more tuples. -/
  loaded : Bool

namespace Cursor

/-- The cursor over `f` before its first tuple. -/
def start (m : Manager) (f : Edge) (slots : List (List Nat)) (care : List Nat) : Cursor :=
  ⟨.start m f, slots, care, #[], [], false⟩

/-- The cursor that expands exactly the levels of its slots. -/
def overSlots (m : Manager) (f : Edge) (slots : List (List Nat)) : Cursor :=
  start m f slots slots.flatten

/-- Set the free ones of the care levels to zero; the result is the counter. -/
def fixFree : List Nat → Array Bit → List Nat → Except Fault (Array Bit × List Nat)
  | [], assignment, counter => .ok (assignment, counter)
  | level :: care, assignment, counter =>
    match assignment[level]? with
    | none => .error .outOfBounds
    | some .free => fixFree care (assignment.setIfInBounds level .zero) (level :: counter)
    | some _ => fixFree care assignment counter

/-- Count up by one; the result is whether that was possible. -/
def increment : List Nat → Array Bit → Bool × Array Bit
  | [], assignment => (false, assignment)
  | level :: counter, assignment =>
    if assignment[level]? = some .zero then
      (true, assignment.setIfInBounds level .one)
    else
      increment counter (assignment.setIfInBounds level .zero)

/-- The number that bits spell behind the number `acc`, `none` where a bit is free. -/
def spell (assignment : Array Bit) : Nat → List Nat → Except Fault (Option Nat)
  | acc, [] => .ok (some acc)
  | acc, level :: levels =>
    match assignment[level]? with
    | none => .error .outOfBounds
    | some .zero => spell assignment (2 * acc) levels
    | some .one => spell assignment (2 * acc + 1) levels
    | some .free => .ok none

/-- The item of a slot, a signed 64-bit number. -/
def item (assignment : Array Bit) (levels : List Nat) : Except Fault Int := do
  match ← spell assignment 0 levels with
  | some n => return Int.bmod n (twoPow 64)
  | none => return Tuple.indeterminate

/-- The tuple of the current assignment. -/
def decode (c : Cursor) : Except Fault Tuple := do
  return ⟨← c.slots.mapM (item c.assignment)⟩

/-- Load the next profile; the result is whether there is one. -/
def load (m : Manager) (c : Cursor) : Except Fault (Bool × Cursor) := do
  match ← c.walk.next m with
  | (none, walk) => return (false, { c with walk })
  | (some profile, walk) =>
    let (assignment, counter) ← fixFree c.care profile []
    return (true, { c with walk, assignment, counter, loaded := true })

/-- The tuple of the loaded profile, and the cursor behind it. -/
def emit (c : Cursor) : Except Fault (Tuple × Cursor) := do
  let tuple ← c.decode
  let (more, assignment) := increment c.counter c.assignment
  return (tuple, { c with assignment, loaded := more })

/-- The next tuple. -/
def next (m : Manager) (c : Cursor) : Except Fault (Option Tuple × Cursor) := do
  let (found, c) ← if c.loaded then pure (true, c) else c.load m
  if found then
    let (tuple, c) ← c.emit
    return (some tuple, c)
  else
    return (none, c)

/-- The next tuples, at most `limit`, behind the reverse of `found`. -/
def takeOnto (m : Manager) : Nat → Cursor → List Tuple → Except Fault (List Tuple × Cursor)
  | 0, c, found => .ok (found.reverse, c)
  | limit + 1, c, found => do
    match ← c.next m with
    | (none, c) => return (found.reverse, c)
    | (some tuple, c) => takeOnto m limit c (tuple :: found)

/-- A bound on the number of tuples: every tuple stands for assignments of its own. -/
def bound (m : Manager) : Nat := twoPow m.numVars

/-- The next tuples, at most `limit` where one is given. -/
def toList (m : Manager) (c : Cursor) (limit : Option Nat) : Except Fault (List Tuple) := do
  let most := match limit with
    | some limit => min limit (bound m)
    | none => bound m
  return (← c.takeOnto m most []).1

end Cursor

end Factbase.Diagram
