import Factbase.Config
import Factbase.Domain.Basic
import Factbase.Relation.Error
import Factbase.Relation.Layout

/-!
# Relations

A relation is described step by step (name, signature, domains), then opened, which gives it a
manager of its own, and at last closed. `Stage` holds at each point exactly what is known by
then, so that a relation with contents always has its full description.

* `Relation.setName`, `setSignature`, `setDomains`: the description;
* `Relation.onManager`, `Relation.update`: programs over the manager of an open relation;
* programs over relations keep the relation reached so far where they fail.
-/

namespace Factbase

open Diagram Factbase.Relation

/-! ## 1. Descriptions and stages -/

namespace Relation

/-- The full description of a relation. -/
structure Schema where
  name : String
  signature : Signature
  /-- The handles of the slots' domains. -/
  domains : List Nat
deriving Repr, Inhabited

/-- The domain of a slot. -/
def Schema.domain (s : Schema) (cat : Catalog) (slot : Nat) : Universe :=
  (s.domains[slot]?.map cat.domain).getD default

/-- The tuples of an open relation: a diagram and the variables of its slots. -/
structure Contents where
  manager : Manager
  root : Edge
  layout : Layout

/-- What is known of a relation at a point of its life. -/
inductive Stage where
  | nameless
  | named (name : String)
  | signed (name : String) (signature : Signature)
  | bound (schema : Schema)
  | opened (schema : Schema) (contents : Contents)
  | closed (schema : Schema)

end Relation

/-- A named set of tuples. -/
structure Relation where
  /-- The configuration of the manager; without one the environment decides on opening. -/
  config : Option Config
  stage : Stage

/-- A program over a relation. -/
abbrev RelationM := EStateM Failure Relation

namespace Relation

/-! ## 2. Questions -/

/-- A relation of which nothing is known. -/
def create (config : Option Config) : Relation := ⟨config, .nameless⟩

instance : Inhabited Relation := ⟨create none⟩

/-- The state of a relation. -/
def state (r : Relation) : State :=
  match r.stage with
  | .nameless | .named _ | .signed _ _ => .unbound
  | .bound _ => .bound
  | .opened _ _ => .opened
  | .closed _ => .closed

/-- The name, empty where there is none yet. -/
def name (r : Relation) : String :=
  match r.stage with
  | .nameless => ""
  | .named name | .signed name _ => name
  | .bound s | .opened s _ | .closed s => s.name

/-- The full description. -/
def schema? (r : Relation) : Option Schema :=
  match r.stage with
  | .bound s | .opened s _ | .closed s => some s
  | _ => none

/-- The signature. -/
def signature? (r : Relation) : Option Signature :=
  match r.stage with
  | .signed _ signature => some signature
  | _ => r.schema?.map (·.signature)

/-- The handles of the domains, none before they are set. -/
def domains (r : Relation) : List Nat := (r.schema?.map (·.domains)).getD []

/-- The name of the file for the diagram. -/
def diagramFile (name : String) : String := name ++ ".bdd"

/-- The name of the file for the printed tuples. -/
def textFile (name : String) : String := name ++ ".txt"

/-! ## 3. Programs -/

/-- Stop with a misuse. -/
def misuse {α : Type} (fault : Fault) : RelationM α := throw (.fault fault)

/-- Stop with a problem of the relation. -/
def problem {α : Type} (problem : RelationProblem) : RelationM α := fun r =>
  .error (.error ⟨r.name, problem⟩) r

/-- Go on unless something is wrong. -/
def orProblem {α : Type} (result : Except RelationProblem α) : RelationM α :=
  match result with
  | .ok a => pure a
  | .error found => problem found

/-- What an open relation is made of, its manager apart. -/
def opening : RelationM (Schema × Edge × Layout) := fun r =>
  match r.stage with
  | .opened schema contents => .ok (schema, contents.root, contents.layout) r
  | _ => .error (.fault (.notOpen r.name r.state)) r

/-- Run a program on the manager of an open relation. -/
def onManager {α : Type} (act : Edge → Layout → Op α) : RelationM α
  | ⟨config, .opened schema ⟨manager, root, layout⟩⟩ =>
    match act root layout manager with
    | .ok a manager => .ok a ⟨config, .opened schema ⟨manager, root, layout⟩⟩
    | .error fault manager =>
      .error (.fault fault) ⟨config, .opened schema ⟨manager, root, layout⟩⟩
  | r => .error (.fault (.notOpen r.name r.state)) r

/-- Replace the diagram of an open relation. -/
def setRoot (root : Edge) : RelationM Unit
  | ⟨config, .opened schema contents⟩ => .ok () ⟨config, .opened schema { contents with root }⟩
  | r => .error (.fault (.notOpen r.name r.state)) r

/-- Replace the diagram of an open relation by the result of a program. -/
def update (act : Edge → Layout → Op Edge) : RelationM Unit := do
  setRoot (← onManager act)

/-! ## 4. Describing a relation -/

/-- Set the name. -/
def setName (name : String) : RelationM Unit := fun r =>
  match r.stage with
  | .nameless =>
    if name.isEmpty then .error (.fault .nameEmpty) r else .ok () { r with stage := .named name }
  | _ => .error (.fault (.nameAlreadySet r.name)) r

/-- Set the signature of a named relation. -/
def setSignature (signature : Signature) : RelationM Unit := fun r =>
  match r.stage with
  | .nameless => .error (.fault .signatureBeforeName) r
  | .named name => .ok () { r with stage := .signed name signature }
  | _ => .error (.fault (.signatureAlreadySet r.name)) r

/-- The first slot whose domain is not named after its kind. -/
def checkKinds (relation : String) (cat : Catalog) :
    Nat → List (String × Nat) → Except Fault Unit
  | _, [] => .ok ()
  | slot, (slotName, handle) :: rest =>
    let domain := (cat.domain handle).name
    if domain = Signature.kindOfName slotName then
      checkKinds relation cat (slot + 1) rest
    else
      .error (.domainKind relation domain slot slotName)

/-- Set the domains of a relation with a signature, one for every slot and named after its
kind. -/
def setDomains (cat : Catalog) (domains : List Nat) : RelationM Unit := fun r =>
  match r.stage with
  | .nameless | .named _ => .error (.fault (.domainsBeforeSignature r.name)) r
  | .signed name signature =>
    if domains.length ≠ signature.arity then
      .error (.fault (.domainCount name signature.arity domains.length)) r
    else
      match checkKinds name cat 0 (signature.names.zip domains) with
      | .error fault => .error (.fault fault) r
      | .ok () => .ok () { r with stage := .bound ⟨name, signature, domains⟩ }
  | _ => .error (.fault (.domainsAlreadySet r.name)) r

/-- Describe a relation at once. -/
def bind (cat : Catalog) (name : String) (signature : Signature) (domains : List Nat) :
    RelationM Unit := do
  setName name
  setSignature signature
  setDomains cat domains

end Relation

end Factbase
