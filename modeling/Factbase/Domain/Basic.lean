import Factbase.Domain.Numbering
import Factbase.Fault
import Factbase.Text.Quoted

/-!
# Domains

A domain numbers the values of one kind, of any type, and knows their canonical texts. Relations do
not care what the values are: they see a `Universe`, a domain whose type is erased. The types that
can be erased are those of `ElementType`, strings and 32-bit words; a domain of another type can be
built and saved, and no relation ranges over it. All domains in use stand in a `Catalog` and are
named there by a handle, so that relations which range over the same domain see it grow together.
-/

namespace Factbase

/-! ## 1. Domains -/

/-- A named numbering. -/
structure Domain (α : Type) [BEq α] [Hashable α] where
  name : String
  /-- The canonical text of a value; distinct values should have distinct texts. -/
  canon : α → String
  numbering : Numbering α

namespace Domain

variable {α : Type} [BEq α] [Hashable α]

/-- An empty domain. -/
def create (name : String) (canon : α → String) : Except Fault (Domain α) :=
  if name.isEmpty then .error .domainNameEmpty else .ok ⟨name, canon, {}⟩

/-- The number of values. -/
def size (d : Domain α) : Nat := d.numbering.size

/-- The index of a value, which is added where it is new. -/
def add (d : Domain α) (v : α) : Nat × Domain α :=
  let ⟨name, canon, numbering⟩ := d
  let (i, numbering) := numbering.add v
  (i, ⟨name, canon, numbering⟩)

/-- The index of a value. -/
def indexOf? (d : Domain α) (v : α) : Option Nat := d.numbering.indexOf? v

/-- The value at an index. -/
def get? (d : Domain α) (i : Nat) : Option α := d.numbering.get? i

/-- The value at an index, which has to be in range. -/
def get (d : Domain α) (i : Nat) : Except Fault α :=
  match d.get? i with
  | some v => .ok v
  | none => .error (.domainIndex i d.name d.size)

/-- The canonical text of the value at an index. -/
def canonAt (d : Domain α) (i : Nat) : Except Fault String := d.canon <$> d.get i

/-- All values in order. -/
def values (d : Domain α) : List α := d.numbering.values.toList

/-- The name of the file that describes the domain. -/
def domFile (name : String) : String := name ++ ".dom"

/-- The name of the file that lists the canonical texts. -/
def mapFile (name : String) : String := name ++ ".map"

/-- A one-line summary. -/
def summary (d : Domain α) : String :=
  s!"Domain \x7b name: {Text.quoted d.name}, size: {d.size} \x7d"

end Domain

/-! ## 2. Values and universes -/

/-- The types of values that a relation can range over. -/
inductive ElementType where
  | string
  | word
deriving DecidableEq, Repr, Inhabited

/-- The name of an element type in messages. -/
def ElementType.name : ElementType → String
  | .string => "alloc::string::String"
  | .word => "u32"

/-- A value of a domain that a relation ranges over, with its type. -/
inductive Value where
  | string (s : String)
  | word (n : UInt32)
deriving DecidableEq, Repr, Inhabited

namespace Value

/-- The type of a value. -/
def type : Value → ElementType
  | .string _ => .string
  | .word _ => .word

/-- A value in messages. -/
def shown : Value → String
  | .string s => Text.quoted s
  | .word n => s!"{n.toNat}"

end Value

/-- A domain whose element type is known only when it is looked at. -/
inductive Universe where
  | strings (d : Domain String)
  | words (d : Domain UInt32)

namespace Universe

instance : Inhabited Universe := ⟨.strings ⟨"", id, {}⟩⟩

/-- The type of the values. -/
def type : Universe → ElementType
  | .strings _ => .string
  | .words _ => .word

/-- The domain's name. -/
def name : Universe → String
  | .strings d => d.name
  | .words d => d.name

/-- The number of values. -/
def size : Universe → Nat
  | .strings d => d.size
  | .words d => d.size

/-- The index of a value; one of the other type has none. -/
def indexOf? : Universe → Value → Option Nat
  | .strings d, .string s => d.indexOf? s
  | .words d, .word n => d.indexOf? n
  | _, _ => none

/-- The value at an index. -/
def get? : Universe → Nat → Option Value
  | .strings d, i => (d.get? i).map .string
  | .words d, i => (d.get? i).map .word

/-- The value at an index, which has to be in range. -/
def get : Universe → Nat → Except Fault Value
  | .strings d, i => .string <$> d.get i
  | .words d, i => .word <$> d.get i

/-- The canonical text of the value at an index. -/
def canonAt : Universe → Nat → Except Fault String
  | .strings d, i => d.canonAt i
  | .words d, i => d.canonAt i

/-- The canonical text of a value of the universe's type. -/
def canon? : Universe → Value → Option String
  | .strings d, .string s => some (d.canon s)
  | .words d, .word n => some (d.canon n)
  | _, _ => none

/-- The index of a value, which is added where it is new; one of the other type is not. -/
def add : Universe → Value → Option Nat × Universe
  | .strings d, .string s => let (i, d) := d.add s; (some i, .strings d)
  | .words d, .word n => let (i, d) := d.add n; (some i, .words d)
  | u, _ => (none, u)

/-- All values in order. -/
def values : Universe → List Value
  | .strings d => d.values.map .string
  | .words d => d.values.map .word

/-- A one-line summary. -/
def summary : Universe → String
  | .strings d => d.summary
  | .words d => d.summary

end Universe

/-! ## 3. Catalogs -/

/-- All domains in use. -/
structure Catalog where
  universes : Array Universe := #[]

namespace Catalog

instance : Inhabited Catalog := ⟨{}⟩

/-- The domain with a handle. -/
def domain (c : Catalog) (handle : Nat) : Universe := c.universes[handle]?.getD default

/-- Enter a domain; the result is its handle. -/
def enter (c : Catalog) (u : Universe) : Nat × Catalog :=
  let handle := c.universes.size
  (handle, ⟨c.universes.push u⟩)

/-- Add a value to the domain with a handle. -/
def add (c : Catalog) (handle : Nat) (v : Value) : Option Nat × Catalog :=
  let u := c.domain handle
  let cleared := c.universes.setIfInBounds handle default
  let (i, u) := u.add v
  (i, ⟨cleared.setIfInBounds handle u⟩)

end Catalog

end Factbase
