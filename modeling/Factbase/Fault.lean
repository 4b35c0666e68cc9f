import Factbase.Relation.State

/-!
# Misuse

A `Fault` is a mistake of the caller: an argument outside an operation's precondition, or an
operation asked for in the wrong state. It is no answer about the data; the errors that are
answers (a missing file, a value outside its domain) have types of their own beside the
operations that raise them. `Fault.message` is the one place with the wording.
-/

namespace Factbase

/-- The causes of misuse. -/
inductive Fault where
  -- Tables and words
  | storageBits
  | cacheBits
  | freeFraction
  | indexZero
  | unoccupied (index : Nat)
  | outOfBounds
  | overflow
  | assertion
  /-- A walk that does not come to an end; no well-formed diagram causes it. -/
  | endless
  -- Variables and diagrams
  | zeroVariable
  | unallocated (v : Nat)
  | orderTooLate
  | orderLength (count : Nat)
  | orderUnknown (v : Nat)
  | orderRepeats (v : Nat)
  | falseVariableSet
  -- Domains
  | domainNameEmpty
  | domainIndex (index : Nat) (domain : String) (size : Nat)
  -- Relations and views
  | nameAlreadySet (name : String)
  | nameEmpty
  | signatureBeforeName
  | signatureAlreadySet (relation : String)
  | domainsBeforeSignature (relation : String)
  | domainsAlreadySet (relation : String)
  | domainCount (relation : String) (slots domains : Nat)
  | domainKind (relation domain : String) (slot : Nat) (slotName : String)
  | notOpen (relation : String) (state : Relation.State)
  | notOpenable (relation : String) (state : Relation.State)
  | notClosable (relation : String) (state : Relation.State)
  | noSlot (relation : String) (slot : Nat)
  | slotDeleted (slot : Nat) (relation : String)
deriving DecidableEq, Repr, Inhabited

/-- The text of a misuse. -/
def Fault.message : Fault → String
  | .storageBits => "Storage bits should be in the range 0..=31"
  | .cacheBits => "Bits should be in the range 0..=31"
  | .freeFraction => "Minimum free fraction should be in the range [0, 1)"
  | .indexZero => "Index is 0"
  | .unoccupied i => s!"Index {i} is not occupied"
  | .outOfBounds => "index out of bounds"
  | .overflow => "arithmetic overflow"
  | .assertion => "assertion failed"
  | .endless => "walk does not end"
  | .zeroVariable => "Variable index should not be zero"
  | .unallocated v => s!"Variable {v} is not allocated"
  | .orderTooLate => "Variable order can only be set before any node is created"
  | .orderLength n => s!"Order must mention all {n} variables"
  | .orderUnknown v => s!"Unknown variable {v} in order"
  | .orderRepeats v => s!"Variable {v} appears twice in order"
  | .falseVariableSet => "Variable set must be a positive cube"
  | .domainNameEmpty => "Domain name must not be empty"
  | .domainIndex i d n => s!"Index {i} is out of range for domain {d} of size {n}"
  | .nameAlreadySet r => s!"Relation name is already set to {r}"
  | .nameEmpty => "Relation name must not be empty"
  | .signatureBeforeName => "Relation name must be set before its signature"
  | .signatureAlreadySet r => s!"Signature of relation {r} is already set"
  | .domainsBeforeSignature r => s!"Signature of relation {r} must be set before its domains"
  | .domainsAlreadySet r => s!"Domains of relation {r} are already set"
  | .domainCount r slots domains => s!"Relation {r} has {slots} slots but got {domains} domains"
  | .domainKind r d slot name => s!"Relation {r}: domain {d} does not match slot {slot} ({name})"
  | .notOpen r s => s!"Relation {r} is not open (state: {s.word})"
  | .notOpenable r s => s!"Relation {r} cannot be opened (state: {s.word})"
  | .notClosable r s => s!"Relation {r} cannot be closed (state: {s.word})"
  | .noSlot r slot => s!"Relation {r} has no slot {slot}"
  | .slotDeleted slot r => s!"Slot {slot} of relation {r} is already deleted from this view"

end Factbase
