import Factbase.Fault
import Factbase.Numeric.Power

/-!
# Hash-consing tables

A table numbers values from 1 in the order in which they are stored and never forgets one.
Values with the same bucket are chained: a bucket holds the first index of its chain, a cell
the next one, and 0 ends the chain.

* `Table.put` looks a value up and stores it only where it is new;
* `Table.add` stores it in any case, outside the chains;
* the capacity is a promise of space, kept by doubling (`reserve`), and no answer but
  `capacity` depends on it.
-/

namespace Factbase.Diagram

/-- A stored value and the next index of its chain. -/
structure Cell (α : Type) where
  value : α
  next : Nat
deriving Inhabited

/-- A table of values of type `α`. -/
structure Table (α : Type) where
  /-- The cell of index `i` stands at position `i - 1`. -/
  cells : Array (Cell α)
  /-- The first index of every chain, 0 for an empty one. -/
  buckets : Array Nat
  capacity : Nat
  /-- The table doubles once fewer than this fraction of its capacity is free. -/
  minFree : Float
  /-- Links set on cells that hold no value yet, newest first. -/
  loose : List (Nat × Nat)

namespace Table

variable {α : Type}

/-! ## 1. Sizes -/

/-- An empty table of `twoPow bits` cells. -/
def create (bits : Nat) (minFree : Float) : Except Fault (Table α) :=
  if 31 < bits then
    .error .storageBits
  else if 0.0 ≤ minFree && minFree < 1.0 then
    .ok ⟨#[], Array.replicate (twoPow (min bits 16)) 0, twoPow bits, minFree, []⟩
  else
    .error .freeFraction

/-- The number of stored values, which is also the last index. -/
def size (t : Table α) : Nat := t.cells.size

/-- Whether one more value would leave too few cells free; cell 0 stays empty. -/
def crowded (t : Table α) : Bool :=
  let used := t.size + 1
  decide (Float.ofNat t.capacity * (1.0 - t.minFree) ≤ Float.ofNat used)
    || decide (t.capacity ≤ used)

/-- Double the capacity where the table is crowded. -/
def reserve (t : Table α) : Table α :=
  if t.crowded then { t with capacity := max (t.capacity * 2) 2 } else t

/-! ## 2. Single cells -/

/-- The value at an index. -/
def value (t : Table α) (index : Nat) : Except Fault α :=
  if index = 0 then
    .error .indexZero
  else
    match t.cells[index - 1]? with
    | some cell => .ok cell.value
    | none => .error (.unoccupied index)

/-- The link of a cell, which need not hold a value yet. -/
def next (t : Table α) (index : Nat) : Except Fault Nat :=
  if index = 0 then
    .error .indexZero
  else if t.capacity ≤ index then
    .error .outOfBounds
  else
    match t.cells[index - 1]? with
    | some cell => .ok cell.next
    | none => .ok ((t.loose.lookup index).getD 0)

/-- Link an existing cell to the index `next`. -/
def link (t : Table α) (index next : Nat) : Table α :=
  if index ≤ t.size then
    { t with cells := t.cells.modify (index - 1) fun cell => { cell with next } }
  else
    { t with loose := (index, next) :: t.loose }

/-- Set the link of a cell, which need not hold a value yet. -/
def setNext (t : Table α) (index next : Nat) : Except Fault (Table α) :=
  if index = 0 then
    .error .indexZero
  else if t.capacity ≤ index then
    .error .outOfBounds
  else
    .ok (t.link index next)

/-- Store a value under the next index, unlinked. -/
def add (t : Table α) (v : α) : Nat × Table α :=
  let t := t.reserve
  let index := t.size + 1
  (index, { t with cells := t.cells.push ⟨v, 0⟩ })

/-! ## 3. Look-up by value -/

variable [Hashable α] [BEq α]

/-- The bucket of a value. -/
def bucketOf (t : Table α) (v : α) : Nat :=
  (hash v % t.buckets.size.toUInt64).toNat

/-- Where a search for a value ended. -/
inductive Probe where
  | found (index : Nat)
  /-- The value is new; its chain ends at `last`, 0 for an empty chain. -/
  | missing (last : Nat)
deriving DecidableEq, Repr

/-- Follow a chain from `index` until the value or the chain's end is met. -/
def follow (t : Table α) (v : α) : Nat → Nat → Except Fault Probe
  | 0, _ => .error .endless
  | fuel + 1, index => do
    let held ← t.value index
    if held == v then
      return .found index
    let next ← t.next index
    if next = 0 then
      return .missing index
    follow t v fuel next

/-- Search for a value; a chain visits no index twice. -/
def probe (t : Table α) (v : α) : Except Fault Probe :=
  match t.buckets[t.bucketOf v]?.getD 0 with
  | 0 => .ok (.missing 0)
  | first => t.follow v (t.size + t.loose.length + 1) first

/-- The index of a value, stored at the end of its chain where it is new. -/
def put (t : Table α) (v : α) : Except Fault Nat × Table α :=
  match t.probe v with
  | .error fault => (.error fault, t)
  | .ok (.found index) => (.ok index, t)
  | .ok (.missing last) =>
    let bucket := t.bucketOf v
    let (index, t) := t.add v
    if last = 0 then
      (.ok index, { t with buckets := t.buckets.setIfInBounds bucket index })
    else
      (.ok index, t.link last index)

end Table

end Factbase.Diagram
