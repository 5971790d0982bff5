import RuleChain.Hex

/-! # JSON

  The values that reports are made of and their written form: every member and every item on a
  line of its own, indented by two blanks for each level. Empty objects and arrays are closed at
  once. Only quotes, backslashes and control characters below the blank are escaped.
-/

namespace RuleChain

/-- A value of a report. -/
inductive Json where
  | null
  | bool (value : Bool)
  | number (value : Nat)
  | string (value : String)
  | array (items : List Json)
  | object (members : List (String × Json))
deriving Repr, Inhabited

namespace Json

/-! ### Strings -/

/-- A character as it stands in a string. -/
def escape (c : Char) : List Char :=
  match c with
  | '"' => ['\\', '"']
  | '\\' => ['\\', '\\']
  | '\n' => ['\\', 'n']
  | '\r' => ['\\', 'r']
  | '\t' => ['\\', 't']
  | '\x08' => ['\\', 'b']
  | '\x0c' => ['\\', 'f']
  | c =>
    if c.toNat < 0x20 then
      ['\\', 'u', '0', '0', Hex.digit (c.toNat / 16), Hex.digit (c.toNat % 16)]
    else [c]

/-- A string with its quotes. -/
def quote (text : String) : String :=
  "\"" ++ String.ofList (text.toList.flatMap escape) ++ "\""

/-! ### Values -/

/-- The start of a line at a level. -/
def margin (level : Nat) : String := String.ofList (List.replicate (2 * level) ' ')

/-- Lines between brackets; no lines leave nothing between them. -/
def bracket (opening closing : String) (level : Nat) (lines : List String) : String :=
  if lines.isEmpty then opening ++ closing
  else
    opening ++ "\n" ++ ",\n".intercalate (lines.map (margin (level + 1) ++ ·)) ++ "\n"
      ++ margin level ++ closing

mutual

/-- A value whose first line starts at a level. -/
def render (level : Nat) : Json → String
  | .null => "null"
  | .bool value => if value then "true" else "false"
  | .number value => toString value
  | .string value => quote value
  | .array items => bracket "[" "]" level (renderItems (level + 1) items)
  | .object members => bracket "\x7b" "\x7d" level (renderMembers (level + 1) members)

def renderItems (level : Nat) : List Json → List String
  | [] => []
  | item :: rest => render level item :: renderItems level rest

def renderMembers (level : Nat) : List (String × Json) → List String
  | [] => []
  | (key, value) :: rest => (quote key ++ ": " ++ render level value) :: renderMembers level rest

end

/-- The written form of a value. -/
def text (value : Json) : String := value.render 0

/-! ### Absent values -/

/-- A value, or null in its absence. -/
def orNull {α : Type} (value : Option α) (make : α → Json) : Json := (value.map make).getD .null

/-- A member that is left out if there is no value. -/
def member? {α : Type} (key : String) (value : Option α) (make : α → Json) :
    List (String × Json) :=
  (value.map fun a => (key, make a)).toList

end Json

end RuleChain
