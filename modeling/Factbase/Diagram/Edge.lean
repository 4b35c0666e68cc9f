import Factbase.Fault
import Factbase.Numeric.Power

/-!
# Edges

An edge of a decision diagram points at a node by its index and may be complemented. It is
written as one signed code: the absolute value is the index, a negative sign the complement.
Node 1 is the only leaf, so `1` is true and `-1` is false.

* complementing twice changes nothing (`neg_neg`) and keeps the index (`index_neg`);
* an edge is its index and its sign (`eq_of_index_of_negated`).
-/

namespace Factbase.Diagram

/-- A possibly complemented pointer to a node. -/
structure Edge where
  code : Int
deriving DecidableEq, Hashable, Repr, Inhabited

namespace Edge

/-! ## 1. Reading an edge -/

/-- True. -/
def one : Edge := ⟨1⟩

/-- False. -/
def zero : Edge := ⟨-1⟩

/-- The node that the edge points at. -/
def index (e : Edge) : Nat := e.code.natAbs

/-- Whether the edge is complemented. -/
def negated (e : Edge) : Bool := decide (e.code < 0)

/-- Whether the edge points at the leaf. -/
def isTerminal (e : Edge) : Bool := e.index == 1

instance : Neg Edge where
  neg e := ⟨-e.code⟩

/-- The complement of `e` where `flip` holds, else `e`. -/
def complementIf (flip : Bool) (e : Edge) : Edge :=
  if flip then -e else e

/-- The uncomplemented edge to the node at `index`. -/
def ofIndex (index : Nat) : Edge := ⟨index⟩

/-- A 32-bit word read as a signed code. -/
def ofWord (word : Nat) : Edge := ⟨Int.bmod word (twoPow 32)⟩

/-- The edge with the least 32-bit code. -/
def least : Edge := ⟨-(twoPow 31 : Nat)⟩

/-- The complement of a 32-bit code; the least one has none. -/
def negate? (e : Edge) : Except Fault Edge :=
  if e = least then .error .overflow else .ok (-e)

/-- The edge that an index with a sign stands for, both as 32-bit words. -/
def ofSigned (n : Int) : Except Fault Edge :=
  if n < 0 then (ofWord n.natAbs).negate? else .ok (ofWord n.natAbs)

/-- The word that an edge is hashed by: its index, then one bit for the complement. -/
def word (e : Edge) : UInt64 :=
  (e.index.toUInt64 <<< 1) ||| (if e.negated then 1 else 0)

/-- `@index`, with `~` in front where complemented. -/
def render (e : Edge) : String :=
  (if e.negated then "~@" else "@") ++ toString e.index

/-! ## 2. Laws -/

@[ext] theorem ext {e f : Edge} (h : e.code = f.code) : e = f := by
  cases e; cases f; simp_all

@[simp] theorem code_neg (e : Edge) : (-e).code = -e.code := rfl

@[simp] theorem neg_neg (e : Edge) : - -e = e := by
  ext; simp

@[simp] theorem index_neg (e : Edge) : (-e).index = e.index := by
  simp [index]

@[simp] theorem neg_one : -one = zero := rfl

@[simp] theorem neg_zero : -zero = one := rfl

@[simp] theorem isTerminal_neg (e : Edge) : (-e).isTerminal = e.isTerminal := by
  simp [isTerminal]

/-- The two leaves are the edges to node 1. -/
theorem isTerminal_iff {e : Edge} : e.isTerminal = true ↔ e = one ∨ e = zero := by
  simp only [isTerminal, index, beq_iff_eq, Edge.ext_iff, one, zero]
  omega

theorem eq_of_index_of_negated {e f : Edge} (hi : e.index = f.index)
    (hn : e.negated = f.negated) : e = f := by
  ext
  simp only [index, negated, decide_eq_decide] at hi hn
  omega

end Edge

end Factbase.Diagram
