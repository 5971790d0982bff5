import RuleChain.Error
import RuleChain.Expr

/-! # Rulesets

  A ruleset as it is written down: chains with their rules, in which constants are hexadecimal
  text and other chains are known by name.
-/

namespace RuleChain

/-- The verdicts that a ruleset can name. -/
inductive VerdictWord where
  | accept
  | drop
  | queue
  | stolen
  | proceed
  | leave
  | jump
  | goto
deriving DecidableEq, Repr, Inhabited

/-- An expression as it is written down. -/
inductive ExprSpec where
  | payload (base : Header) (offset : UInt32) (len dreg : UInt8)
  | compare (sreg : UInt8) (op : CompareOp) (data : String) (mask : Option String)
  | immediate (dreg : UInt8) (data : String)
  | verdict (verdict : VerdictWord) (target : Option String) (queue : Option UInt16)
deriving DecidableEq, Repr

/-- A rule as it is written down. -/
structure RuleSpec where
  comment : Option String
  exprs : List ExprSpec
deriving DecidableEq, Repr

/-- A chain as it is written down; with a policy it is a base chain. -/
structure ChainSpec where
  name : String
  policy : Option Policy
  rules : List RuleSpec
deriving DecidableEq, Repr

/-- A whole ruleset. -/
structure Ruleset where
  /-- The name of the table. -/
  name : String
  ns : Namespace
  /-- The chains, in the order in which they are created. -/
  chains : List ChainSpec
deriving DecidableEq, Repr

/-- The number of rules in all chains. -/
def Ruleset.ruleCount (ruleset : Ruleset) : Nat :=
  (ruleset.chains.flatMap (·.rules)).length

/-- The number of rules that a ruleset may have. -/
def Ruleset.maxRules : Nat := 100000

/-! ### Expressions from their written form -/

namespace ExprSpec

/-- Reads a constant of an expression of the given kind. -/
def readHex (kind : ExprKind) (text : String) : Except EngineError Bytes :=
  match Hex.readField text with
  | .ok bytes => .ok bytes
  | .error e => .error (.ofFault kind (.badHex text e))

/-- Reports a fault as one of an expression of the given kind. -/
def complain (kind : ExprKind) (expr : Except ExprFault Expr) : Except EngineError Expr :=
  expr.mapError (EngineError.ofFault kind)

/-- The chain that a jump or goto names. -/
def resolve (chains : String → Option ChainId) (target : Option String) :
    Except EngineError ChainId :=
  match target with
  | none => .error (.ofFault .verdict .missingTarget)
  | some name =>
    match chains name with
    | none => .error (.unknownChain name)
    | some id => .ok id

/-- The verdict that a word stands for; a queue without a number is queue zero. -/
def toVerdict (chains : String → Option ChainId) (word : VerdictWord) (target : Option String)
    (queue : Option UInt16) : Except EngineError Verdict :=
  match word with
  | .accept => .ok (.final .accept)
  | .drop => .ok (.final .drop)
  | .stolen => .ok (.final .stolen)
  | .queue => .ok (.final (.queue (queue.getD 0)))
  | .proceed => .ok .proceed
  | .leave => .ok .leave
  | .jump => (resolve chains target).map .jump
  | .goto => (resolve chains target).map .goto

/-- The expression that is meant, with chains found by name. -/
def toExpr (chains : String → Option ChainId) : ExprSpec → Except EngineError Expr
  | .payload base offset len dreg => complain .payload (Expr.ofPayload base offset len dreg)
  | .compare sreg op data mask => do
    let data ← readHex .compare data
    match mask with
    | none => complain .compare (Expr.ofCompare sreg op data)
    | some mask =>
      if op = .eq then
        let mask ← readHex .compare mask
        complain .compare (Expr.ofMasked sreg mask data)
      else .error (.ofFault .compare .maskWithoutEquality)
  | .immediate dreg data => do
    let data ← readHex .immediate data
    complain .immediate (Expr.ofBytes dreg data)
  | .verdict word target queue => (toVerdict chains word target queue).map Expr.ofVerdict

end ExprSpec

end RuleChain
