import Factbase.Fault

/-!
# Variable orders

Variables are numbered from 1; each stands at a level, numbered from 0 at the top. An order
keeps both directions of that correspondence for the variables that were placed. Fresh variables
stand behind these by their numbers, so that any number of them takes no space (`extend`);
`ofList` places given variables from the top and refuses a list that is no arrangement of them
all.
-/

namespace Factbase.Diagram

/-- The correspondence between variables and levels. -/
structure Order where
  /-- The level of the placed variable `v` stands at position `v - 1`. -/
  levels : Array Nat
  /-- The variables of the levels from the top, as far as they are placed. -/
  vars : Array Nat
  /-- The number of variables behind the placed ones. -/
  fresh : Nat
deriving Inhabited

namespace Order

/-- No variables. -/
def empty : Order := ⟨#[], #[], 0⟩

/-- The number of variables. -/
def size (o : Order) : Nat := o.vars.size + o.fresh

/-- Append `count` fresh variables at the bottom. -/
def extend (o : Order) (count : Nat) : Order := { o with fresh := o.fresh + count }

/-- The level of a variable, which is numbered from 1. -/
def level? (o : Order) (v : Nat) : Option Nat :=
  match o.levels[v - 1]? with
  | some level => some level
  | none => if v ≤ o.size then some (v - 1) else none

/-- The variable at a level. -/
def var? (o : Order) (level : Nat) : Option Nat :=
  match o.vars[level]? with
  | some v => some v
  | none => if level < o.size then some (level + 1) else none

/-- The level of a variable. -/
def levelOf (o : Order) (v : Nat) : Except Fault Nat :=
  if v = 0 then
    .error .zeroVariable
  else
    match o.level? v with
    | some level => .ok level
    | none => .error .outOfBounds

/-- The variable at a level. -/
def varAt (o : Order) (level : Nat) : Except Fault Nat :=
  match o.var? level with
  | some v => .ok v
  | none => .error .outOfBounds

/-- Give the variables of `vs` the levels from `level` on; `levels` holds what is placed. -/
def place : List Nat → Nat → Array (Option Nat) → Except Fault (Array (Option Nat))
  | [], _, levels => .ok levels
  | v :: vs, level, levels =>
    if v = 0 ∨ levels.size < v then
      .error (.orderUnknown v)
    else if (levels[v - 1]?.join).isSome then
      .error (.orderRepeats v)
    else
      place vs (level + 1) (levels.setIfInBounds (v - 1) (some level))

/-- The order of `count` variables that lists them from the top. -/
def ofList (count : Nat) (vs : List Nat) : Except Fault Order := do
  if vs.length ≠ count then
    throw (.orderLength count)
  let levels ← place vs 0 (Array.replicate count none)
  return ⟨levels.map (·.getD 0), vs.toArray, 0⟩

end Order

end Factbase.Diagram
