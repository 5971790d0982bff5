import RuleChain.Toml.Scalar
import RuleChain.Toml.Table

/-! # Keys and values

  A key is a bare word or a string of one line, or several of these joined by dots. A value is a
  scalar, an array or an inline table. Arrays and inline tables may be spread over lines and may
  end with a comma; they may be nested to a limited depth, on which the reader of values
  recurses.
-/

namespace RuleChain.Toml

/-! ### Keys -/

/-- The characters of a bare key. -/
def isBareChar (c : Char) : Bool :=
  isDecimal c || ('a' ≤ c && c ≤ 'z') || ('A' ≤ c && c ≤ 'Z') || c == '-' || c == '_'

/-- Reads one part of a key. -/
def readKeyPart : Reader String
  | [] => none
  | c :: rest =>
    if isBareChar c then
      some (.behind (String.ofList (c :: rest.takeWhile isBareChar)) (.dropWhile isBareChar rest))
    else readShortString (c :: rest)

/-- Reads one part of a key, and the dot behind it if there is one. Blanks behind either are
skipped. -/
def keyPiece : Reader (Piece String) := fun s => do
  let part ← readKeyPart s
  let part := part.skip skipGaps
  match part.takeChar? '.' with
  | some part => return (part.skip skipGaps).map fun name => .more [name]
  | none => return part.map fun name => .last [name]

/-- How many parts a key may have. -/
def maxKeyParts : Nat := 80

/-- Parts with the last one set apart. -/
def splitLast? (parts : List String) : Option (List String × String) :=
  parts.getLast?.map fun key => (parts.dropLast, key)

/-- Reads a key: its path and its last part. Blanks behind it are skipped. -/
def readKey : Reader (List String × String) := fun s => do
  let found ← collect keyPiece s
  let key ← splitLast? found.value
  if found.value.length ≤ maxKeyParts then return found.map fun _ => key else none

/-! ### Arrays and inline tables -/

/-- Reads an item of a list and the comma or the closing bracket behind it, or else the closing
bracket alone. -/
def itemPiece {α : Type} (closing : Char) (read : Reader α) : Reader (Piece α) := fun s =>
  let body := skipLines s
  match readChar closing body.val with
  | some closed => some ((closed.map fun () => .last []).within body)
  | none => do
    let item ← read body.val
    let item := (item.within body).skip skipLines
    match item.takeChar? ',' with
    | some item => return item.map fun a => .more [a]
    | none => return (← item.takeChar? closing).map fun a => .last [a]

/-- Reads a key, an equals sign and a value. -/
def readPair (read : Reader Datum) : Reader ((List String × String) × Datum) := fun s => do
  let key ← readKey s
  let key ← key.takeChar? '='
  (key.skip skipGaps).followedBy read

/-- The inline table with the given keys and values. -/
def tableOf? (pairs : List ((List String × String) × Datum)) : Option Datum := do
  let entries ← pairs.foldlM
    (fun (entries : Entries) ((path, key), value) => entries.addValue path key value .named) []
  return .table (toData entries)

/-! ### Values -/

/-- How deep arrays and inline tables may be nested. -/
def maxNesting : Nat := 80

/-- Reads a value in which arrays and inline tables are nested at most so deep. -/
def readValue : (depth : Nat) → Reader Datum
  | _, [] => none
  | depth, c :: rest =>
    if c = '"' ∨ c = '\'' then (readString (c :: rest)).map (·.map .string)
    else if c = '[' then
      match depth with
      | 0 => none
      | depth + 1 => do
        let items ← collect (itemPiece ']' (readValue depth)) rest
        return (items.map .array).push
    else if c = '\x7b' then
      match depth with
      | 0 => none
      | depth + 1 => do
        let pairs ← collect (itemPiece '\x7d' (readPair (readValue depth))) rest
        let d ← tableOf? pairs.value
        return (pairs.map fun _ => d).push
    else readScalar (c :: rest)

end RuleChain.Toml
