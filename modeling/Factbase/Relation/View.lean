import Factbase.Relation.Tuples

/-!
# Views

A view starts with all tuples of an open relation and is narrowed in place: `select` keeps the
tuples with a given value in a slot, `delete` projects a slot away. The relation's tuples do not
change; its manager lends the space. Operations answer with the narrowed view, so that a view
stays as it was where they fail.
-/

namespace Factbase.Relation

open Diagram

/-- A selection and projection of an open relation. -/
structure View where
  root : Edge
  /-- For every slot, whether it is still there. -/
  visible : List Bool
deriving Repr, Inhabited

namespace View

/-- The view of all tuples. -/
def create : RelationM View := do
  let (_, root, layout) ← opening
  return ⟨root, List.replicate layout.arity true⟩

/-- The slots that are still there, in order. -/
def slots (v : View) : List Nat :=
  (List.range v.visible.length).filter fun slot => v.visible[slot]?.getD false

/-- Refuse a slot that the relation does not have or the view has no more. -/
def requireSlot (v : View) (slot : Nat) : RelationM Unit := do
  match v.visible[slot]? with
  | none => misuse (.noSlot (← get).name slot)
  | some false => misuse (.slotDeleted slot (← get).name)
  | some true => return ()

/-- Keep the tuples with an index in a slot. -/
def selectIndex (v : View) (cat : Catalog) (slot index : Nat) : RelationM View := do
  v.requireSlot slot
  let (schema, _, layout) ← opening
  let index ← orProblem (checkSlot cat schema layout slot index)
  let root ← onManager fun _ layout => do
    Manager.conj v.root (← Manager.cube (layout.literals slot index))
  return { v with root }

/-- Keep the tuples with a value in a slot. -/
def select (v : View) (cat : Catalog) (slot : Nat) (value : Value) : RelationM View := do
  v.requireSlot slot
  let (schema, _, _) ← opening
  let index ← orProblem (resolveValue (schema.domain cat slot) slot value)
  v.selectIndex cat slot index

/-- Project a slot away. -/
def delete (v : View) (slot : Nat) : RelationM View := do
  v.requireSlot slot
  let root ← onManager fun _ layout =>
    Manager.project v.root (layout.sets[slot]?.getD .one)
  return ⟨root, v.visible.set slot false⟩

/-- Keep the tuples with a value in a slot and project it away. -/
def selectAndDelete (v : View) (cat : Catalog) (slot : Nat) (value : Value) :
    RelationM View := do
  (← v.select cat slot value).delete slot

/-- Keep the tuples with an index in a slot and project it away. -/
def selectIndexAndDelete (v : View) (cat : Catalog) (slot index : Nat) : RelationM View := do
  (← v.selectIndex cat slot index).delete slot

/-- The number of tuples over the slots that are still there. The others no longer constrain
their bits, so every tuple is counted once for each of their settings. -/
def sizeExact (v : View) : RelationM Nat :=
  onManager fun _ layout => Manager.ask fun m => do
    let hidden := (List.range v.visible.length).filter fun slot =>
      !(v.visible[slot]?.getD false)
    let bits := hidden.foldl (fun n slot => n + layout.width slot) 0
    return (← m.satCount v.root m.numVars) / twoPow bits

/-- The number of tuples as a 64-bit number, which stops at the greatest one. -/
def size (v : View) : RelationM Nat := return min (← v.sizeExact) greatestWord

/-- Whether the view has no tuples. -/
def isEmpty (v : View) : RelationM Bool := do
  let _ ← opening
  return v.root = .zero

/-- Test a tuple over the slots that are still there. -/
def containsIndices (v : View) (cat : Catalog) (indices : List Nat) : RelationM Bool := do
  if indices.length ≠ v.slots.length then
    problem (.arityMismatch v.slots.length indices.length)
  let (schema, _, layout) ← opening
  let placed ← orProblem ((v.slots.zip indices).mapM fun (slot, index) => do
    return layout.literals slot (← checkSlot cat schema layout slot index))
  onManager fun _ _ => do
    let common ← Manager.conj v.root (← Manager.cube placed.flatten)
    return common ≠ .zero

/-- The cursor over the slots that are still there. -/
def tuples (v : View) : RelationM Cursor :=
  onManager fun _ layout => Manager.ask fun m => do
    return .overSlots m v.root (← v.slots.mapM (layout.levels m))

end View

end Factbase.Relation
