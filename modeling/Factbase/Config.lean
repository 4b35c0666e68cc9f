import Factbase.Numeric.Decimal
import Factbase.Text.Blank
import Factbase.Text.Numeral
import Factbase.Text.Quoted

/-!
# Configuration

How a relation's manager is sized and how its variables are ordered. The defaults can be
overridden by five settings of the environment, each of which is text around which blanks do not
count. A setting that cannot be read or is out of range is passed over with a warning.
-/

namespace Factbase

open Text

/-! ## 1. Configurations -/

/-- The implementation of decision diagrams. -/
inductive Backend where
  | native
deriving DecidableEq, Repr, Inhabited

/-- The name of a backend. -/
def Backend.name : Backend → String
  | .native => "Native"

/-- Sizes and orders of a manager. -/
structure Config where
  /-- The node table starts with `2 ^ nodeTableBits` cells. -/
  nodeTableBits : Nat := 16
  /-- The operation cache has `2 ^ cacheBits` places. -/
  cacheBits : Nat := 14
  /-- The node table doubles once less than this fraction of it is free. -/
  minFree : Float := 0.2
  /-- Whether a slot's bits are ordered from the least significant one on. -/
  reverseOrder : Bool := false
  backend : Backend := .native
deriving BEq, Inhabited

/-! ## 2. Reading a setting -/

/-- Why a setting cannot be read. -/
inductive SettingError where
  | numeral (error : NumeralError)
  | float (error : FloatError)
  | bool
  | backend (name : String)
deriving DecidableEq, Repr, Inhabited

/-- The text of the error. -/
def SettingError.message : SettingError → String
  | .numeral error => error.message
  | .float error => error.message
  | .bool => "provided string was not `true` or `false`"
  | .backend name => s!"unknown BDD backend '{name}'"

/-- A number of bits. -/
def readBits (cs : List Char) : Except SettingError Nat :=
  (readNat .word64 cs).mapError .numeral

/-- A fraction. -/
def readFraction (cs : List Char) : Except SettingError Float :=
  (readFloat cs).mapError .float

/-- A truth value. -/
def readBool (cs : List Char) : Except SettingError Bool :=
  match String.ofList cs with
  | "true" => .ok true
  | "false" => .ok false
  | _ => .error .bool

/-- A backend by its name, in capital or small ASCII letters. -/
def readBackend (cs : List Char) : Except SettingError Backend :=
  match String.ofList (cs.map Char.toLower) with
  | "native" => .ok .native
  | other => .error (.backend other)

/-! ## 3. Warnings -/

/-- What the user is told about without being stopped. -/
inductive Warning where
  | ignored (key raw : String) (error : SettingError)
  | bitsTooLarge (key : String) (bits : Nat)
  | freeOutOfRange (fraction : Float)
  | widened (relation : String) (slot saved now : Nat)
  | dropped (relation path : String)

/-- The text of a warning. -/
def Warning.message : Warning → String
  | .ignored key raw error => s!"Ignoring {key}={quoted raw}: {error.message}"
  | .bitsTooLarge key bits => s!"{key}={bits} is too large, clamping to 31"
  | .freeOutOfRange x => s!"BDD_MIN_FREE={renderFloat x} is out of range, using default"
  | .widened relation slot saved now =>
    s!"Relation {relation}: slot {slot} was saved with {saved} bits, widening to {now}"
  | .dropped relation path =>
    s!"Relation {relation}: dropping tuples of {path} outside the current domains"

/-! ## 4. The environment -/

/-- The settings that are made. -/
abbrev Environment := List (String × String)

/-- A value together with the warnings on the way to it. -/
structure Warned (α : Type) where
  value : α
  warnings : List Warning

/-- The value of a setting, `default` where it is not made or cannot be read. -/
def setting {α : Type} (env : Environment) (key : String)
    (read : List Char → Except SettingError α) (default : α) : Warned α :=
  match env.lookup key with
  | none => ⟨default, []⟩
  | some raw =>
    match read (trim raw.toList) with
    | .ok value => ⟨value, []⟩
    | .error error => ⟨default, [.ignored key raw error]⟩

/-- A number of bits, at most 31. -/
def clampBits (key : String) (bits : Nat) : Warned Nat :=
  if 31 < bits then ⟨31, [.bitsTooLarge key bits]⟩ else ⟨bits, []⟩

/-- A fraction in `[0, 1)`, else `default`. -/
def clampFraction (x default : Float) : Warned Float :=
  if 0.0 ≤ x && x < 1.0 then ⟨x, []⟩ else ⟨default, [.freeOutOfRange x]⟩

/-- The configuration of an environment. -/
def Config.ofEnvironment (env : Environment) : Warned Config :=
  let standard : Config := {}
  let tableBits := setting env "BDD_NODE_TABLE_BITS" readBits standard.nodeTableBits
  let cacheBits := setting env "BDD_CACHE_BITS" readBits standard.cacheBits
  let minFree := setting env "BDD_MIN_FREE" readFraction standard.minFree
  let reverse := setting env "BDD_REVERSE_ORDER" readBool standard.reverseOrder
  let backend := setting env "BDD_BACKEND" readBackend standard.backend
  let tableClamped := clampBits "BDD_NODE_TABLE_BITS" tableBits.value
  let cacheClamped := clampBits "BDD_CACHE_BITS" cacheBits.value
  let freeClamped := clampFraction minFree.value standard.minFree
  ⟨⟨tableClamped.value, cacheClamped.value, freeClamped.value, reverse.value, backend.value⟩,
    tableBits.warnings ++ cacheBits.warnings ++ minFree.warnings ++ reverse.warnings
      ++ backend.warnings ++ tableClamped.warnings ++ cacheClamped.warnings
      ++ freeClamped.warnings⟩

end Factbase
