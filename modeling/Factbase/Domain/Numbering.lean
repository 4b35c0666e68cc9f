import Std.Data.HashMap

/-!
# Numberings

A numbering gives values the indices `0, 1, …` in the order in which they are first added, and
never takes one back. It is kept in both directions: the values in order, and the index of every
value.
-/

namespace Factbase

/-- A growing correspondence between values and indices. -/
structure Numbering (α : Type) [BEq α] [Hashable α] where
  values : Array α := #[]
  index : Std.HashMap α Nat := ∅

namespace Numbering

variable {α : Type} [BEq α] [Hashable α]

instance : Inhabited (Numbering α) := ⟨{}⟩

/-- The number of values. -/
def size (n : Numbering α) : Nat := n.values.size

/-- The index of a value. -/
def indexOf? (n : Numbering α) (v : α) : Option Nat := n.index[v]?

/-- The value at an index. -/
def get? (n : Numbering α) (i : Nat) : Option α := n.values[i]?

/-- Append a value under the next index. -/
def push (n : Numbering α) (v : α) : Numbering α :=
  let i := n.values.size
  ⟨n.values.push v, n.index.insert v i⟩

/-- The index of a value, which is appended where it is new. -/
def add (n : Numbering α) (v : α) : Nat × Numbering α :=
  match n.indexOf? v with
  | some i => (i, n)
  | none => (n.size, n.push v)

end Numbering

end Factbase
