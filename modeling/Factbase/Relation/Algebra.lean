import Factbase.Diagram.Dot
import Factbase.Relation.Tuples

/-!
# Combining relations

Two relations combine where they agree, slot by slot, on the name of the domain and on the
width. Their layouts need not agree: the other relation's diagram is written out and read back
with the variables of this one.

* `unionWith`, `intersectWith`, `subtract`;
* `Relation.dot`: a drawing with the slots' bits as labels.
-/

namespace Factbase.Relation

open Diagram

/-! ## 1. Compatibility -/

/-- The first slot whose domains differ in name or whose widths differ. -/
def compareSlots : Nat → List ((String × Nat) × (String × Nat)) → Option Mismatch
  | _, [] => none
  | slot, ((here, hereWidth), (there, thereWidth)) :: rest =>
    if here ≠ there then
      some (.domain slot here there)
    else if hereWidth ≠ thereWidth then
      some (.width slot hereWidth thereWidth)
    else
      compareSlots (slot + 1) rest

/-- Names of domains and widths of all slots. -/
def slotShapes (cat : Catalog) (schema : Schema) (layout : Layout) : List (String × Nat) :=
  (schema.domains.map fun handle => (cat.domain handle).name).zip
    (layout.slots.map List.length)

/-- Why two open relations cannot be combined, if they cannot. -/
def mismatch? (cat : Catalog) (here there : Schema × Layout) : Option Mismatch :=
  if here.2.arity ≠ there.2.arity then
    some (.arity here.2.arity there.2.arity)
  else
    compareSlots 0 ((slotShapes cat here.1 here.2).zip (slotShapes cat there.1 there.2))

/-! ## 2. Set operations -/

/-- The contents of an open relation. -/
def openContents (r : Relation) : Except Fault (Schema × Contents) :=
  match r.stage with
  | .opened schema contents => .ok (schema, contents)
  | _ => .error (.notOpen r.name r.state)

/-- The lines of a diagram's body. -/
def bodyLines (c : Contents) : Except Fault (List (Option (List Char))) := do
  return (Text.splitLines (← c.manager.body c.root).render.toList).map some

/-- The counterparts of the other layout's variables. -/
def counterparts (here there : Layout) : Std.HashMap Nat Nat :=
  .ofList (there.slots.flatten.zip here.slots.flatten)

/-- The other relation's diagram in this relation's manager. -/
def importFrom (cat : Catalog) (other : Relation) : RelationM Edge := do
  let (schema, _, layout) ← opening
  let (otherSchema, otherContents) ← match other.openContents with
    | .ok parts => pure parts
    | .error fault => misuse fault
  if let some found := mismatch? cat (schema, layout) (otherSchema, otherContents.layout) then
    problem (.incompatible otherSchema.name found)
  let lines ← match bodyLines otherContents with
    | .ok lines => pure lines
    | .error fault => misuse fault
  let remap := counterparts layout otherContents.layout
  match ← onManager fun _ _ => Manager.readBody (remap[·]?) lines with
  | .ok f => return f
  | .error error => problem (.incompatible otherSchema.name (.body error))

/-- Add all tuples of another relation. -/
def unionWith (cat : Catalog) (other : Relation) : RelationM Unit := do
  let f ← importFrom cat other
  update fun root _ => Manager.disj root f

/-- Keep the tuples that another relation has, too. -/
def intersectWith (cat : Catalog) (other : Relation) : RelationM Unit := do
  let f ← importFrom cat other
  update fun root _ => Manager.conj root f

/-- Remove all tuples of another relation. -/
def subtract (cat : Catalog) (other : Relation) : RelationM Unit := do
  let f ← importFrom cat other
  update fun root _ => Manager.diff root f

/-! ## 3. Drawing -/

/-- The labels of all variables: the slot's name, and the bit counted from the least significant
one. -/
def labels (names : List String) (layout : Layout) : Std.HashMap Nat String :=
  .ofList ((names.zip layout.slots).flatMap fun (name, vars) =>
    vars.mapIdx fun i v => (v, s!"{name}[{vars.length - 1 - i}]"))

/-- The drawing of an open relation. -/
def dot : RelationM String := do
  let (schema, _, _) ← opening
  onManager fun root layout =>
    let labels := labels schema.signature.names layout
    Manager.ask fun m => m.dot .standard (fun v => labels.getD v "") [root]

end Factbase.Relation
