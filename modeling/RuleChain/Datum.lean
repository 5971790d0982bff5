/-! # Data

  A document as it is before anything is known about its meaning: what a configuration or a ruleset
  file holds, and what is decoded from it. Tables keep their keys in the order in which they were
  written.
-/

namespace RuleChain

/-- A value of a document. -/
inductive Datum where
  /-- The absence of a value, which only some notations can write. -/
  | null
  | bool (value : Bool)
  | integer (value : Int)
  /-- A number with a fraction or an exponent. Nothing in a document of this program is one, so
  its value is not kept. -/
  | float
  /-- A date or a time of day; its value is not kept either. -/
  | dateTime
  | string (value : String)
  | array (items : List Datum)
  | table (entries : List (String × Datum))
deriving Repr, Inhabited

end RuleChain
