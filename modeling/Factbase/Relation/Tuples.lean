import Factbase.Diagram.Count
import Factbase.Diagram.Cursor
import Factbase.Diagram.Quantify
import Factbase.Diagram.Reach
import Factbase.Relation.Opening

/-!
# Tuples of a relation

Adding, removing and testing single tuples, given by indices or by values, counting, and
enumeration. An index has to be below the present size of its domain and to fit the width that
its slot got on opening; a value has to be in its domain, which no operation extends.
-/

namespace Factbase.Relation

open Diagram

/-! ## 1. Checks -/

/-- Check an index against the domain of a slot. -/
def checkIndex (u : Universe) (slot index : Nat) : Except RelationProblem Nat :=
  if index < u.size then
    .ok index
  else
    .error (.indexOutOfRange u.name slot index u.size)

/-- Check an index against the domain and then against the width of a slot. -/
def checkSlot (cat : Catalog) (schema : Schema) (layout : Layout) (slot index : Nat) :
    Except RelationProblem Nat := do
  let u := schema.domain cat slot
  let index ← checkIndex u slot index
  let size := twoPow (layout.width slot)
  if index < size then
    return index
  throw (.indexOutOfRange u.name slot index size)

/-- Check the number of slots of a tuple. -/
def checkArity (layout : Layout) (found : Nat) : Except RelationProblem Unit :=
  if found = layout.arity then .ok () else .error (.arityMismatch layout.arity found)

/-- Check the indices of a tuple from left to right. -/
def checkTuple (cat : Catalog) (schema : Schema) (layout : Layout) (indices : List Nat) :
    Except RelationProblem (List Nat) := do
  checkArity layout indices.length
  (indices.zipIdx).mapM fun (index, slot) => checkSlot cat schema layout slot index

/-- The index of a value in the domain of a slot. -/
def resolveValue (u : Universe) (slot : Nat) (v : Value) : Except RelationProblem Nat :=
  if u.type ≠ v.type then
    .error (.typeMismatch u.name slot v.type.name)
  else
    match u.indexOf? v with
    | some index => .ok index
    | none => .error (.valueNotInDomain u.name slot v.shown)

/-- The indices of a tuple of values: first all values are looked up, then all indices
checked. -/
def resolveTuple (cat : Catalog) (schema : Schema) (layout : Layout) (values : List Value) :
    Except RelationProblem (List Nat) := do
  checkArity layout values.length
  let indices ← (values.zipIdx).mapM fun (v, slot) =>
    resolveValue (schema.domain cat slot) slot v
  checkTuple cat schema layout indices

/-- The indices of a tuple for an open relation. -/
def checked (cat : Catalog) (indices : List Nat) : RelationM (List Nat) := do
  let (schema, _, layout) ← opening
  orProblem (checkTuple cat schema layout indices)

/-- The indices of a tuple of values for an open relation. -/
def resolved (cat : Catalog) (values : List Value) : RelationM (List Nat) := do
  let (schema, _, layout) ← opening
  orProblem (resolveTuple cat schema layout values)

/-! ## 2. Single tuples -/

/-- Add a tuple that is checked. -/
def addChecked (indices : List Nat) : RelationM Unit :=
  update fun root layout => do Manager.disj root (← layout.tupleCube indices)

/-- Remove a tuple that is checked. -/
def removeChecked (indices : List Nat) : RelationM Unit :=
  update fun root layout => do Manager.diff root (← layout.tupleCube indices)

/-- Test a tuple that is checked. -/
def containsChecked (indices : List Nat) : RelationM Bool :=
  onManager fun root layout => do
    let common ← Manager.conj root (← layout.tupleCube indices)
    return common ≠ .zero

/-- Add a tuple of indices. -/
def addIndices (cat : Catalog) (indices : List Nat) : RelationM Unit := do
  addChecked (← checked cat indices)

/-- Remove a tuple of indices. -/
def removeIndices (cat : Catalog) (indices : List Nat) : RelationM Unit := do
  removeChecked (← checked cat indices)

/-- Test a tuple of indices. -/
def containsIndices (cat : Catalog) (indices : List Nat) : RelationM Bool := do
  containsChecked (← checked cat indices)

/-- Add a tuple of values. -/
def add (cat : Catalog) (values : List Value) : RelationM Unit := do
  addChecked (← resolved cat values)

/-- Remove a tuple of values. -/
def remove (cat : Catalog) (values : List Value) : RelationM Unit := do
  removeChecked (← resolved cat values)

/-- Test a tuple of values. -/
def contains (cat : Catalog) (values : List Value) : RelationM Bool := do
  containsChecked (← resolved cat values)

/-! ## 3. Counting -/

/-- The greatest 64-bit number. -/
def greatestWord : Nat := twoPow 64 - 1

/-- The number of tuples. The set of all variables has one node for each, and the leaf. -/
def sizeExact : RelationM Nat :=
  onManager fun root layout => Manager.ask fun m => do
    m.satCount root ((← m.diagramSize layout.all) - 1)

/-- The number of tuples as a 64-bit number, which stops at the greatest one. -/
def size : RelationM Nat := return min (← sizeExact) greatestWord

/-- Whether there are no tuples. -/
def isEmpty : RelationM Bool := do
  let (_, root, _) ← opening
  return root = .zero

/-! ## 4. Enumeration -/

/-- The cursor over all tuples. -/
def tuples : RelationM Cursor :=
  onManager fun root layout => Manager.ask fun m => do
    return .overSlots m root (← (List.range layout.arity).mapM (layout.levels m))

/-- The cursor over the projection onto the listed slots. The variables of the others are
quantified away, so that every projected tuple comes once. -/
def tuplesOf (slots : List Nat) : RelationM Cursor := do
  let (schema, _, layout) ← opening
  if let some slot := slots.find? (layout.arity ≤ ·) then
    misuse (.noSlot schema.name slot)
  onManager fun root layout => do
    let hidden := (List.range layout.arity).filter fun slot => !slots.contains slot
    let vars ← Manager.varCube (hidden.flatMap layout.vars)
    let f ← Manager.project root vars
    Manager.ask fun m => do
      return .overSlots m f (← slots.mapM (layout.levels m))

/-- The next tuple of a cursor. -/
def nextTuple (c : Cursor) : RelationM (Option Tuple × Cursor) :=
  onManager fun _ _ => Manager.ask (c.next ·)

/-- The next tuples of a cursor, at most `limit` where one is given. -/
def takeTuples (c : Cursor) (limit : Option Nat) : RelationM (List Tuple) :=
  onManager fun _ _ => Manager.ask (c.toList · limit)

/-- The value at an index of a domain with values of a given type. -/
def valueAt (u : Universe) (slot : Nat) (type : ElementType) (index : Nat) :
    Except RelationProblem Value :=
  if u.type ≠ type then
    .error (.typeMismatch u.name slot type.name)
  else
    match u.get? index with
    | some v => .ok v
    | none => .error (.indexOutOfRange u.name slot index u.size)

/-- The values of a tuple of indices. -/
def decodeTuple (cat : Catalog) (schema : Schema) (types : List ElementType) (t : Tuple) :
    Except RelationError (List Value) :=
  let decode : (ElementType × Int) × Nat → Except RelationProblem Value :=
    fun ((type, item), slot) => valueAt (schema.domain cat slot) slot type item.toNat
  ((types.zip t.items).zipIdx.mapM decode).mapError (⟨schema.name, ·⟩)

/-- All tuples as values of given types, at most `limit` where one is given. A tuple that cannot
be decoded stands there as an error. -/
def values (cat : Catalog) (types : List ElementType) (limit : Option Nat) :
    RelationM (List (Except RelationError (List Value))) := do
  let (schema, _, layout) ← opening
  orProblem (checkArity layout types.length)
  return (← takeTuples (← tuples) limit).map (decodeTuple cat schema types)

end Factbase.Relation
