import Factbase.Diagram.Ite
import Factbase.Numeric.Width
import Factbase.Signature

/-!
# Layouts

Every slot of an open relation owns a block of consecutive variables, as many as its domain
needs, the most significant bit first. `arrange` places the blocks in levels: the groups of the
signature from top to bottom, and inside a group bit by bit, slots of the same group being
aligned at their least significant bits.

* `Layout.literals`, `Layout.tupleCube`: the bits of an index, and of a tuple;
* `Layout.inRange`, `Layout.inDomains`: the indices below a size, and the tuples of such.
-/

namespace Factbase.Relation

open Diagram

/-- The variables of all slots. -/
structure Layout where
  /-- The variables of every slot, the most significant bit first. -/
  slots : List (List Nat)
  /-- The set of variables of every slot. -/
  sets : List Edge
  /-- The set of all variables. -/
  all : Edge
  /-- The sizes of the domains when the relation was opened. -/
  sizes : List Nat
deriving Repr, Inhabited

namespace Layout

/-! ## 1. Placing variables -/

/-- The variables that a group places at one step, counted from the top of a group of the given
width. -/
def dealStep (slots : List (List Nat)) (reverse : Bool) (width step : Nat) (group : List Nat) :
    List Nat :=
  group.filterMap fun slot =>
    let vars := slots[slot]?.getD []
    let offset := width - vars.length
    if step < offset then
      none
    else if reverse then
      vars[vars.length - 1 - (step - offset)]?
    else
      vars[step - offset]?

/-- The variables of one group from top to bottom. -/
def dealGroup (slots : List (List Nat)) (reverse : Bool) (group : List Nat) : List Nat :=
  let width := (group.map fun slot => (slots[slot]?.getD []).length).foldl max 0
  (List.range width).flatMap fun step => dealStep slots reverse width step group

/-- All variables from top to bottom. -/
def arrange (slots : List (List Nat)) (reverse : Bool) (groups : List (List Nat)) : List Nat :=
  groups.flatMap (dealGroup slots reverse)

/-- A block of fresh variables. -/
def block (width : Nat) : Op (List Nat) := do
  let first ← Manager.extendVars width
  return List.range' first width

/-- Lay out slots over domains of given sizes in an empty manager. As long as its variables are
numbers of 31 bits, their sets are those of their words. -/
def create (groups : List (List Nat)) (sizes : List Nat) (reverse : Bool) : Op Layout := do
  let widths ← Manager.ask fun _ => sizes.mapM widthOf
  let slots ← widths.mapM block
  Manager.setVarOrder (arrange slots reverse groups)
  let sets ← slots.mapM Manager.varCube
  let all ← Manager.varCube slots.flatten
  return ⟨slots, sets, all, sizes⟩

/-! ## 2. Bits -/

/-- The number of slots. -/
def arity (l : Layout) : Nat := l.slots.length

/-- The variables of a slot. -/
def vars (l : Layout) (slot : Nat) : List Nat := l.slots[slot]?.getD []

/-- The number of bits of a slot. -/
def width (l : Layout) (slot : Nat) : Nat := (l.vars slot).length

/-- The levels of a slot's bits, the most significant first. -/
def levels (l : Layout) (m : Manager) (slot : Nat) : Except Fault (List Nat) :=
  (l.vars slot).mapM m.order.levelOf

/-- The literals that say that variables hold the bits of an index. -/
def bitLiterals (vars : List Nat) (index : Nat) : List Int :=
  vars.mapIdx fun i (v : Nat) =>
    if index.testBit (vars.length - 1 - i) then (v : Int) else -(v : Int)

/-- The literals that say that a slot holds an index. -/
def literals (l : Layout) (slot index : Nat) : List Int := bitLiterals (l.vars slot) index

/-- The cube of a tuple. -/
def tupleCube (l : Layout) (indices : List Nat) : Op Edge :=
  Manager.cube (indices.mapIdx fun slot index => l.literals slot index).flatten

/-! ## 3. Ranges -/

/-- The bit patterns below `size`, from the least significant bit up; `bits` counts the bits
done. -/
def belowFrom (size : Nat) : Nat → Edge → List Nat → Op Edge
  | _, below, [] => pure below
  | bits, below, v :: vars => do
    let x ← Manager.mkVar v
    let below ←
      if size.testBit bits then Manager.ite x below .one else Manager.ite x .zero below
    belowFrom size (bits + 1) below vars

/-- The indices of a slot that its domain has. -/
def inRange (l : Layout) (slot : Nat) : Op Edge := do
  let size := l.sizes[slot]?.getD 0
  if twoPow (l.width slot) ≤ size then
    return .one
  belowFrom size 0 .zero (l.vars slot).reverse

/-- The tuples whose every index its domain has. -/
def inDomains (l : Layout) : Op Edge :=
  (List.range l.arity).foldlM (fun f slot => do Manager.conj f (← l.inRange slot)) .one

end Layout

end Factbase.Relation
