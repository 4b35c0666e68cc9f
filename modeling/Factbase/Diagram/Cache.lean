import Factbase.Fault
import Factbase.Numeric.Power

/-!
# Operation caches

A cache has `twoPow bits` places. A key is kept in the place that its hash names, and a later key
of the same place drives it out, so a look-up may miss what was stored; it never answers with
another key's value. Look-ups are counted.
-/

namespace Factbase.Diagram

/-- A direct-mapped cache. -/
structure Cache (κ ν : Type) where
  places : Array (Option (κ × ν))
  hits : Nat
  misses : Nat

namespace Cache

variable {κ ν : Type}

/-- An empty cache of `twoPow bits` places. -/
def create (bits : Nat) : Except Fault (Cache κ ν) :=
  if 31 < bits then .error .cacheBits else .ok ⟨Array.replicate (twoPow bits) none, 0, 0⟩

variable [Hashable κ] [BEq κ]

/-- The place of a key. -/
def placeOf (c : Cache κ ν) (key : κ) : Nat :=
  (hash key % c.places.size.toUInt64).toNat

/-- The value kept under a key. -/
def find? (c : Cache κ ν) (key : κ) : Option ν :=
  match c.places[c.placeOf key]?.join with
  | some (held, value) => if held == key then some value else none
  | none => none

/-- A counted look-up. -/
def get (c : Cache κ ν) (key : κ) : Option ν × Cache κ ν :=
  match c.find? key with
  | some value => (some value, { c with hits := c.hits + 1 })
  | none => (none, { c with misses := c.misses + 1 })

/-- Keep a value under a key, driving out what its place held. -/
def insert (c : Cache κ ν) (key : κ) (value : ν) : Cache κ ν :=
  let place := c.placeOf key
  { c with places := c.places.setIfInBounds place (some (key, value)) }

end Cache

end Factbase.Diagram
