import Factbase.Relation.Basic

/-!
# Opening and closing

A bound relation is opened with an empty manager and a layout for the present sizes of its
domains: as the full product (`one`), as the empty set (`zero`), or from a file. Closing gives
the manager up for good.
-/

namespace Factbase.Relation

open Diagram

/-- A relation on the point of being opened. -/
structure Prepared where
  schema : Schema
  warnings : List Warning
  manager : Manager
  layout : Layout

/-- An empty manager with a layout for a bound relation. -/
def prepare (cat : Catalog) (env : Environment) (r : Relation) : Except Fault Prepared :=
  match r.stage with
  | .bound schema => do
    let config : Warned Config := match r.config with
      | some config => ⟨config, []⟩
      | none => Config.ofEnvironment env
    let ⟨tableBits, cacheBits, minFree, reverse, _⟩ := config.value
    let manager ← Manager.create tableBits cacheBits minFree
    let sizes := schema.domains.map fun handle => (cat.domain handle).size
    match Layout.create schema.signature.groups sizes reverse manager with
    | .ok layout manager => return ⟨schema, config.warnings, manager, layout⟩
    | .error fault _ => throw fault
  | _ => .error (.notOpenable r.name r.state)

/-- Open with the diagram that a program builds. -/
def openAs (cat : Catalog) (env : Environment) (act : Layout → Op Edge) : RelationM Unit :=
  fun r =>
    match r.prepare cat env with
    | .error fault => .error (.fault fault) r
    | .ok ⟨schema, _, manager, layout⟩ =>
      match act layout manager with
      | .ok root manager => .ok () { r with stage := .opened schema ⟨manager, root, layout⟩ }
      | .error fault _ => .error (.fault fault) r

/-- Open as the product of the domains. -/
def one (cat : Catalog) (env : Environment) : RelationM Unit := openAs cat env Layout.inDomains

/-- Open as the empty set. -/
def zero (cat : Catalog) (env : Environment) : RelationM Unit :=
  openAs cat env fun _ => pure .zero

/-- Give the manager up. -/
def close : RelationM Unit := fun r =>
  match r.stage with
  | .opened schema _ => .ok () { r with stage := .closed schema }
  | _ => .error (.fault (.notClosable r.name r.state)) r

end Factbase.Relation
