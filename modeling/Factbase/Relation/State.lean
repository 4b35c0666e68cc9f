/-!
# Lifecycle states

The four states of a relation, in the only order in which it passes through them.
-/

namespace Factbase.Relation

/-- What a relation can be asked for. -/
inductive State where
  /-- Name, signature or domains are still missing. -/
  | unbound
  /-- Fully described, not opened yet. -/
  | bound
  /-- Holds tuples. -/
  | opened
  /-- Released for good. -/
  | closed
deriving DecidableEq, Repr, Inhabited

namespace State

/-- The word for a state in messages. -/
def word : State → String
  | .unbound => "unbound"
  | .bound => "bound"
  | .opened => "open"
  | .closed => "closed"

/-- The name of a state as a constant. -/
def constant : State → String
  | .unbound => "Unbound"
  | .bound => "Bound"
  | .opened => "Open"
  | .closed => "Closed"

end State

end Factbase.Relation
