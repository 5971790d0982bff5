import RuleChain.Datum

/-! # Decoding

  Typed values out of documents. Nothing is converted: a number is not read from a string, and an
  integer has to lie in the range of its type.

  - A record may be written as a table, or as an array of its fields in order.
  - A choice without an argument is written as a word, or as a table with this word as its only
    key that stands for nothing. What can stand for nothing depends on the notation.
-/

namespace RuleChain

namespace Decode

/-! ### Simple values -/

def string? : Datum → Option String
  | .string value => some value
  | _ => none

def bool? : Datum → Option Bool
  | .bool value => some value
  | _ => none

/-- A natural number below a bound. -/
def natBelow? (bound : Nat) : Datum → Option Nat
  | .integer value => if 0 ≤ value ∧ value < bound then some value.toNat else none
  | _ => none

def uint8? (d : Datum) : Option UInt8 := (natBelow? UInt8.size d).map UInt8.ofNat

def uint16? (d : Datum) : Option UInt16 := (natBelow? UInt16.size d).map UInt16.ofNat

def uint32? (d : Datum) : Option UInt32 := (natBelow? UInt32.size d).map UInt32.ofNat

/-- A natural number of one machine word. -/
def word? (d : Datum) : Option Nat := natBelow? UInt64.size d

/-- A value that may be absent. -/
def optional? {α : Type} (read : Datum → Option α) : Datum → Option (Option α)
  | .null => some none
  | d => (read d).map some

def list? {α : Type} (read : Datum → Option α) : Datum → Option (List α)
  | .array items => items.mapM read
  | _ => none

/-! ### Records -/

/-- What a record may contain beside its fields. -/
inductive Extra where
  /-- Anything. -/
  | anything
  /-- No other key; further array items are not looked at. -/
  | noKey
  /-- Other keys, but no further array items. -/
  | noItem
deriving DecidableEq, Repr

/-- The fields of a record, each of which may be missing. -/
def fields? (names : List String) (extra : Extra) : Datum → Option (List (Option Datum))
  | .table entries =>
    if extra = .noKey ∧ entries.any (fun (key, _) => !names.contains key) then none
    else some (names.map fun name => (entries.find? (·.1 == name)).map (·.2))
  | .array items =>
    if extra = .noItem ∧ names.length < items.length then none
    else some ((List.range names.length).map fun i => items[i]?)
  | _ => none

/-- A field that has to be there. -/
def required {α : Type} (read : Datum → Option α) (field : Option Datum) : Option α :=
  field.bind read

/-- A field with a value for when it is missing. -/
def withDefault {α : Type} (default : α) (read : Datum → Option α) : Option Datum → Option α
  | none => some default
  | some d => read d

/-! ### Choices -/

/-- How the document was written. -/
inductive Form where
  | toml
  | json
  /-- As either, but held back until the kind of its table was known. -/
  | held
deriving DecidableEq, Repr

/-- Whether a value stands for nothing. -/
def isVoid : Form → Datum → Bool
  | .toml, .table [] => true
  | .toml, .array [] => true
  | .json, .null => true
  | .held, .null => true
  | .held, .table [] => true
  | _, _ => false

/-- The word of a choice without an argument. -/
def word (form : Form) : Datum → Option String
  | .string value => some value
  | .table [(key, value)] => if isVoid form value then some key else none
  | _ => none

/-- One of the given choices. -/
def choice? {α : Type} (form : Form) (choices : List (String × α)) (d : Datum) : Option α := do
  let w ← word form d
  (choices.find? (·.1 == w)).map (·.2)

end Decode

end RuleChain
