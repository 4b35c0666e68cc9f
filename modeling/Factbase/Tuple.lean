import Factbase.Numeric.Power

/-!
# Tuples of indices

A tuple holds one index for every slot. An index is a signed 64-bit number; a negative one means
that the slot was not determined.
-/

namespace Factbase

/-- One index for every slot. -/
structure Tuple where
  items : List Int
deriving DecidableEq, Repr, Inhabited

namespace Tuple

/-- The mark of a slot that was not determined. -/
def indeterminate : Int := -1

/-- The number of slots. -/
def arity (t : Tuple) : Nat := t.items.length

/-- A tuple of 64-bit words, read as signed. -/
def ofWords (words : List Nat) : Tuple :=
  ⟨words.map fun (w : Nat) => Int.bmod w (twoPow 64)⟩

/-- The index behind an item. -/
def index? (item : Int) : Option Nat :=
  if 0 ≤ item then some item.toNat else none

/-- Whether every slot is determined. -/
def isDeterminate (t : Tuple) : Bool := t.items.all (0 ≤ ·)

/-- All indices, if every slot is determined. -/
def indices? (t : Tuple) : Option (List Nat) := t.items.mapM index?

/-- The items in parentheses. -/
def render (t : Tuple) : String :=
  "(" ++ ",".intercalate (t.items.map fun i => s!"{i}") ++ ")"

/-- Item by item, the shorter tuple first where one begins the other. -/
def compare (s t : Tuple) : Ordering := List.compareLex Ord.compare s.items t.items

/-- Tuples in increasing order. -/
def sort (ts : List Tuple) : List Tuple := ts.mergeSort fun s t => (compare s t).isLE

end Tuple

end Factbase
