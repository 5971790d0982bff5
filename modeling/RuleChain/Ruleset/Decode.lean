import RuleChain.Decode.Words
import RuleChain.Ruleset.Basic
import RuleChain.Toml.Document

/-! # Rulesets from documents

  The document of a ruleset has a table `table` and arrays of tables `chain` and `chain.rule`. No
  other key may occur in them. An expression is a table whose kind is given by its key `type`;
  its other keys are not looked at, but have to be values that can be held back until the kind is
  known, which leaves out integers of more than 64 bits.
-/

namespace RuleChain

namespace Decode

/-! ### Expressions -/

mutual

/-- Whether a value can be held back. -/
def canHold : Datum → Bool
  | .integer value => -0x8000000000000000 ≤ value && value < UInt64.size
  | .array items => canHoldAll items
  | .table entries => canHoldEntries entries
  | _ => true

def canHoldAll : List Datum → Bool
  | [] => true
  | d :: rest => canHold d && canHoldAll rest

def canHoldEntries : List (String × Datum) → Bool
  | [] => true
  | (_, d) :: rest => canHold d && canHoldEntries rest

end

/-- The kind of an expression, and the rest of it. -/
def tagged? : Datum → Option (String × Datum)
  | .table entries =>
    match entries.find? (·.1 == "type") with
    | some (_, .string tag) => some (tag, .table (entries.filter (·.1 != "type")))
    | _ => none
  | .array (.string tag :: items) => some (tag, .array items)
  | _ => none

/-- The verdicts that can be named. -/
def verdictWords : List (String × VerdictWord) :=
  [("accept", .accept), ("drop", .drop), ("queue", .queue), ("stolen", .stolen),
    ("continue", .proceed), ("return", .leave), ("jump", .jump), ("goto", .goto)]

/-- The parts of an expression of a given kind. -/
def exprBody? : String → Datum → Option ExprSpec
  | "payload", d => do
    match ← fields? ["base", "offset", "len", "dreg"] .noItem d with
    | [base, offset, len, dreg] =>
      return .payload (← required (header? .held) base) (← required uint32? offset)
        (← required uint8? len) (← required uint8? dreg)
    | _ => none
  | "cmp", d => do
    match ← fields? ["sreg", "op", "data", "mask"] .noItem d with
    | [sreg, op, data, mask] =>
      return .compare (← required uint8? sreg) (← withDefault .eq (compareOp? .held) op)
        (← required string? data) (← withDefault none (optional? string?) mask)
    | _ => none
  | "immediate", d => do
    match ← fields? ["dreg", "data"] .noItem d with
    | [dreg, data] => return .immediate (← required uint8? dreg) (← required string? data)
    | _ => none
  | "verdict", d => do
    match ← fields? ["verdict", "target", "queue"] .noItem d with
    | [verdict, target, queue] =>
      return .verdict (← required (choice? .held verdictWords) verdict)
        (← withDefault none (optional? string?) target)
        (← withDefault none (optional? uint16?) queue)
    | _ => none
  | _, _ => none

/-- An expression. -/
def exprSpec? (d : Datum) : Option ExprSpec := do
  let (tag, body) ← tagged? d
  if canHold body then exprBody? tag body else none

/-! ### Rules, chains and rulesets -/

def ruleSpec? (d : Datum) : Option RuleSpec := do
  match ← fields? ["comment", "expr"] .noKey d with
  | [comment, expr] =>
    return ⟨← withDefault none (optional? string?) comment, ← required (list? exprSpec?) expr⟩
  | _ => none

def chainSpec? (d : Datum) : Option ChainSpec := do
  match ← fields? ["name", "policy", "rule"] .noKey d with
  | [name, policy, rule] =>
    return ⟨← required string? name, ← withDefault none (optional? (policy? .toml)) policy,
      ← withDefault [] (list? ruleSpec?) rule⟩
  | _ => none

/-- The name and the namespace of a table. -/
def tableSpec? (d : Datum) : Option (String × Namespace) := do
  match ← fields? ["name", "namespace"] .noKey d with
  | [name, ns] => return (← required string? name, ← withDefault .initial namespace? ns)
  | _ => none

def ruleset? (d : Datum) : Option Ruleset := do
  match ← fields? ["table", "chain"] .noKey d with
  | [table, chain] =>
    let (name, ns) ← required tableSpec? table
    return ⟨name, ns, ← withDefault [] (list? chainSpec?) chain⟩
  | _ => none

end Decode

/-! ### Rulesets from text -/

namespace Ruleset

/-- Where every complaint about the text of a ruleset starts. What exactly is wrong with the text
is not told. -/
def parseComplaint : String := "TOML parse error"

/-- Reads a ruleset; `source` names it in complaints. -/
def parse (text source : String) : Except EngineError Ruleset :=
  match (Toml.parse text).bind fun entries => Decode.ruleset? (.table entries) with
  | none => .error (.rulesetLoad source parseComplaint)
  | some ruleset =>
    if maxRules < ruleset.ruleCount then
      .error (.rulesetLoad source s!"too many rules: max {maxRules}")
    else .ok ruleset

end Ruleset

end RuleChain
