import Factbase.Diagram.Body.Reader
import Factbase.Relation.Header

/-!
# Errors of relations

The answers of a relation that is used correctly and cannot do what it is asked for.
`RelationError.message` is the one place with their wording. A `Failure` is such an error or a
misuse.
-/

namespace Factbase.Relation

open Diagram

/-- Why two relations cannot be combined. -/
inductive Mismatch where
  | arity (here there : Nat)
  | domain (slot : Nat) (here there : String)
  | width (slot here there : Nat)
  | body (error : BodyError)
deriving DecidableEq, Repr, Inhabited

/-- The text of a mismatch. -/
def Mismatch.message : Mismatch → String
  | .arity here there => s!"arity {here} differs from {there}"
  | .domain slot here there => s!"slot {slot} ranges over {here} and {there}"
  | .width slot here there => s!"slot {slot} has {here} bits here and {there} there"
  | .body error => error.message

/-- What is wrong, in a relation that `RelationError.relation` names. -/
inductive RelationProblem where
  | valueNotInDomain (domain : String) (slot : Nat) (value : String)
  | indexOutOfRange (domain : String) (slot index size : Nat)
  | typeMismatch (domain : String) (slot : Nat) (expected : String)
  | arityMismatch (expected found : Nat)
  | incompatible (other : String) (mismatch : Mismatch)
  | access (path : String) (error : AccessError)
  | format (path : String) (problem : HeaderProblem)
  | body (path : String) (error : BodyError)
deriving DecidableEq, Repr, Inhabited

/-- The text of a problem. -/
def RelationProblem.message : RelationProblem → String
  | .valueNotInDomain domain slot value =>
    s!"value {value} is not in domain {domain} (slot {slot})"
  | .indexOutOfRange domain slot index size =>
    s!"index {index} is out of range for domain {domain} of size {size} (slot {slot})"
  | .typeMismatch domain slot expected =>
    s!"domain {domain} (slot {slot}) does not hold values of type {expected}"
  | .arityMismatch expected found => s!"expected a tuple of arity {expected}, got {found}"
  | .incompatible other mismatch => s!"cannot combine with {other}: {mismatch.message}"
  | .access path error => s!"cannot access '{path}': {error.word}"
  | .format path problem => s!"malformed file '{path}': {problem.message}"
  | .body path error => s!"malformed body in '{path}': {error.message}"

/-- A problem of a relation with a given name. -/
structure RelationError where
  relation : String
  problem : RelationProblem
deriving DecidableEq, Repr, Inhabited

/-- The text of an error. -/
def RelationError.message (e : RelationError) : String :=
  s!"relation {e.relation}: {e.problem.message}"

/-- Why an operation did not go through. -/
inductive Failure where
  | fault (fault : Fault)
  | error (error : RelationError)
deriving DecidableEq, Repr, Inhabited

end Factbase.Relation
