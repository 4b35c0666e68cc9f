import Factbase.Diagram.Edge

/-!
# If-then-else triples

The triple `(f, g, h)` asks for "`g` where `f` is true, `h` where it is false". Many triples ask
for the same, and this file picks one of them before any work is done:

* `settled?` answers a triple with a part of it, `isComplement` is true of one that asks for the
  complement of its condition;
* `absorb` replaces a branch that repeats the condition by a constant;
* `raise` swaps condition and branch where that brings a higher variable to the front;
* `regular` frees condition and first branch of complements, moving one to the result.

None of these steps loops: `absorb` leaves nothing for itself to do, and a raised triple is not
raised again.
-/

namespace Factbase.Diagram

/-- A condition and its two branches. -/
structure Triple where
  cond : Edge
  yes : Edge
  no : Edge
deriving DecidableEq, Repr, Inhabited

namespace Triple

/-- The answer to a triple with a constant condition or equal branches, or to one that asks for
its condition. -/
def settled? (t : Triple) : Option Edge :=
  if t.cond = .one then some t.yes
  else if t.cond = .zero then some t.no
  else if t.yes = t.no then some t.yes
  else if t.yes = .one ∧ t.no = .zero then some t.cond
  else none

/-- Whether a triple asks for the complement of its condition. -/
def isComplement (t : Triple) : Bool := t.yes == .zero && t.no == .one

/-- The value of a branch that is the condition or its complement, given what the condition is
in that branch. -/
def branch (cond e known : Edge) : Edge :=
  if e = cond then known else if e = -cond then -known else e

/-- Replace branches that repeat the condition. -/
def absorb (t : Triple) : Triple :=
  ⟨t.cond, branch t.cond t.yes .one, branch t.cond t.no .zero⟩

/-- Bring a branch to the front where it tests a higher variable than the condition. The levels
are those of the three parts. -/
def raise (t : Triple) (i j k : Nat) : Triple :=
  if t.yes = .one ∧ k < i then ⟨t.no, .one, t.cond⟩
  else if t.no = .zero ∧ j < i then ⟨t.yes, t.cond, .zero⟩
  else if t.no = .one ∧ j < i then ⟨-t.yes, -t.cond, .one⟩
  else if t.yes = .zero ∧ k < i then ⟨-t.no, .zero, -t.cond⟩
  else t

/-- A complemented condition swaps the branches. -/
def regularCond (t : Triple) : Triple :=
  if t.cond.negated then ⟨-t.cond, t.no, t.yes⟩ else t

/-- The triple with uncomplemented condition and first branch, and whether its result has to be
complemented. -/
def regular (t : Triple) : Triple × Bool :=
  let t := t.regularCond
  if t.yes.negated then (⟨t.cond, -t.yes, -t.no⟩, true) else (t, false)

end Triple

end Factbase.Diagram
