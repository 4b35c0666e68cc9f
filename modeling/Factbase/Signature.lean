import Factbase.Fault
import Factbase.Text.Blank
import Factbase.Text.Cut
import Factbase.Text.Numeral
import Factbase.Text.Quoted

/-!
# Signatures

A signature names the slots of a relation. A slot's name is a kind (ASCII letters) and a numeral,
and the kind says which domain the slot ranges over. An order says how the slots' bits are laid
out: `_` puts groups one below the other, `x` interleaves the slots of a group. Without an order
every slot is a group.

* `Signature.create` checks names and order and is the only way to a signature;
* `Signature.parse` and `Signature.render` read and write the text form, `M0,M1:M0xM1`.
-/

namespace Factbase

open Text

/-! ## 1. Errors -/

/-- What is wrong with the text of an order. -/
inductive OrderProblem where
  | unexpected (c : Char)
  | expectedName
  | noNumeral (name : String)
  | unexpectedAfterName (c : Char)
deriving DecidableEq, Repr, Inhabited

/-- The text of a problem. -/
def OrderProblem.message : OrderProblem → String
  | .unexpected c => s!"unexpected '{c}'"
  | .expectedName => "expected a domain name"
  | .noNumeral name => s!"domain name '{name}' has no numeral"
  | .unexpectedAfterName c => s!"unexpected '{c}' after a domain name"

/-- Why there is no such signature. -/
inductive SignatureError where
  | empty
  | malformedName (name : String)
  | duplicateName (name : String)
  | malformedOrder (order : String) (problem : OrderProblem)
  | duplicateInOrder (order name : String)
  | orderMismatch (order : String) (names missing unknown : List String)
deriving DecidableEq, Repr, Inhabited

/-- The text of an error. -/
def SignatureError.message : SignatureError → String
  | .empty => "signature has no domains"
  | .malformedName name =>
    s!"malformed domain name '{name}': expected a kind followed by a numeral, e.g. 'M0'"
  | .duplicateName name => s!"domain name '{name}' appears more than once"
  | .malformedOrder order problem => s!"malformed domain order '{order}': {problem.message}"
  | .duplicateInOrder order name => s!"domain order '{order}' mentions '{name}' more than once"
  | .orderMismatch order names missing unknown =>
    s!"domain order '{order}' does not match domains {quotedList names}"
      ++ s!" (missing {quotedList missing}, unknown {quotedList unknown})"

/-! ## 2. Names and orders -/

/-- An ASCII letter. -/
def isLetter (c : Char) : Bool := c.isAlpha

/-- An ASCII digit. -/
def isNumeral (c : Char) : Bool := c.isDigit

/-- Kind and numeral of a slot's name. -/
def splitName? (name : List Char) : Option (List Char × List Char) :=
  let kind := name.takeWhile isLetter
  let numeral := name.dropWhile isLetter
  if kind.isEmpty || numeral.isEmpty || !numeral.all isNumeral then
    none
  else
    some (kind, numeral)

namespace SlotOrder

/-- Read one name and what stands behind it. -/
def readName (cs : List Char) : Except OrderProblem (String × List Char) :=
  let letters := cs.takeWhile isLetter
  let rest := cs.dropWhile isLetter
  let digits := rest.takeWhile isNumeral
  let rest := rest.dropWhile isNumeral
  match digits, rest with
  | [], c :: _ => .error (.unexpected c)
  | [], [] =>
    if letters.isEmpty then .error .expectedName
    else .error (.noNumeral (String.ofList letters))
  | _, _ =>
    if letters.isEmpty then .error .expectedName
    else .ok (String.ofList (letters ++ digits), rest)

/-- Read groups behind the names of an unfinished group. Every name takes a character, so the
length of the text bounds their number. -/
def readGroups : Nat → List String → List Char → Except OrderProblem (List (List String))
  | 0, _, _ => .error .expectedName
  | fuel + 1, group, cs => do
    let (name, rest) ← readName cs
    let group := group ++ [name]
    match rest with
    | [] => return [group]
    | 'x' :: rest => readGroups fuel group rest
    | '_' :: rest => return group :: (← readGroups fuel [] rest)
    | c :: _ => throw (.unexpectedAfterName c)

/-- The groups of names that an order lists. -/
def read (order : String) : Except OrderProblem (List (List String)) :=
  readGroups (order.toList.length + 1) [] order.toList

end SlotOrder

/-! ## 3. Signatures -/

/-- The slots of a relation. -/
structure Signature where
  names : List String
  /-- The order as it was written. -/
  order : Option String
  /-- Slots by group, from top to bottom. -/
  groups : List (List Nat)
deriving DecidableEq, Repr, Inhabited

namespace Signature

/-- The first element that repeats an earlier one; `seen` are those before. -/
def firstRepeat? : List String → List String → Option String
  | _, [] => none
  | seen, name :: names =>
    if seen.contains name then some name else firstRepeat? (name :: seen) names

/-- Check names from the left, each for its form and then for repetition. -/
def checkNames : List String → List String → Except SignatureError Unit
  | _, [] => .ok ()
  | seen, name :: names =>
    if (splitName? name.toList).isNone then
      .error (.malformedName name)
    else if seen.contains name then
      .error (.duplicateName name)
    else
      checkNames (name :: seen) names

/-- The groups of slots for an order over given names. -/
def groupsOf (names : List String) (order : String) : Except SignatureError (List (List Nat)) :=
  match SlotOrder.read order with
  | .error problem => .error (.malformedOrder order problem)
  | .ok groups =>
    let mentioned := groups.flatten
    match firstRepeat? [] mentioned with
    | some name => .error (.duplicateInOrder order name)
    | none =>
      let missing := names.filter fun name => !mentioned.contains name
      let unknown := mentioned.filter fun name => !names.contains name
      if missing.isEmpty && unknown.isEmpty then
        .ok (groups.map fun group => group.map (names.idxOf ·))
      else
        .error (.orderMismatch order names missing unknown)

/-- The signature with given names and order. -/
def create (names : List String) (order : Option String) : Except SignatureError Signature := do
  if names.isEmpty then
    throw .empty
  checkNames [] names
  let groups ← match order with
    | none => pure ((List.range names.length).map fun slot => [slot])
    | some order => groupsOf names order
  return ⟨names, order, groups⟩

/-- The number of slots. -/
def arity (s : Signature) : Nat := s.names.length

/-- The kind of a name. -/
def kindOfName (name : String) : String :=
  String.ofList (name.toList.takeWhile isLetter)

/-- The kind of a slot. -/
def kindOf (s : Signature) (slot : Nat) : Except Fault String :=
  match s.names[slot]? with
  | some name => .ok (kindOfName name)
  | none => .error .outOfBounds

/-- The kinds of all slots. -/
def kinds (s : Signature) : List String := s.names.map kindOfName

/-- The kinds in the order of their first slots. -/
def distinctKinds (s : Signature) : List String :=
  s.kinds.foldl (fun kinds kind => if kinds.contains kind then kinds else kinds ++ [kind]) []

/-! ## 4. The text form -/

/-- Names between commas; blanks around them and empty ones do not count. -/
def readNames (cs : List Char) : List String :=
  (((pieces ',' cs).map trim).filter fun name => !name.isEmpty).map String.ofList

/-- Read the text form; what follows the first colon is the order. -/
def parse (text : String) : Except SignatureError Signature :=
  match cut? ':' text.toList with
  | some (names, order) => create (readNames names) (some (String.ofList (trim order)))
  | none => create (readNames text.toList) none

/-- The text form. -/
def render (s : Signature) : String :=
  let names := ",".intercalate s.names
  match s.order with
  | some order => names ++ ":" ++ order
  | none => names

end Signature

end Factbase
