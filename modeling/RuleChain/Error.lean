import RuleChain.Expr.Fault

/-! # Errors

  - `EngineError` is why a change of the ruleset was refused.
  - `EvalError` is why a traversal was given up.
  - `Failure` is the form in which errors of all parts of the program are reported together.
-/

namespace RuleChain

/-! ### Changes of the ruleset -/

/-- Why a change of the ruleset was refused. -/
inductive EngineError where
  | unknownChain (name : String)
  | unknownChainId (id : ChainId)
  | duplicateChain (name : String)
  | chainNotEmpty (name : String)
  /-- The chain lies on a cycle of jumps and gotos. -/
  | chainLoop (chain : String)
  | jumpToBaseChain (chain : String) (rule : Nat) (target : String)
  | danglingJump (chain : String) (rule : Nat) (target : ChainId)
  | jumpDepthExceeded (chain : String) (depth max : Nat)
  | invalidExpression (kind : ExprKind) (reason : String)
  | ruleNotFound (chain : String) (handle : Nat)
  | rulesetLoad (path reason : String)
  | io (text : String)
deriving DecidableEq, Repr

namespace EngineError

/-- The complaint about an expression of a kind. -/
def ofFault (kind : ExprKind) (fault : ExprFault) : EngineError :=
  .invalidExpression kind fault.message

def message : EngineError → String
  | .unknownChain name => s!"chain not found: {name}"
  | .unknownChainId id => s!"chain id not found: {id.text}"
  | .duplicateChain name => s!"chain already exists: {name}"
  | .chainNotEmpty name => s!"chain '{name}' still has rules"
  | .chainLoop chain => s!"chain loop detected through '{chain}'"
  | .jumpToBaseChain chain rule target =>
    s!"rule {rule} in chain '{chain}' targets base chain '{target}'"
  | .danglingJump chain rule target =>
    s!"rule {rule} in chain '{chain}' targets missing chain {target.text}"
  | .jumpDepthExceeded chain depth max =>
    s!"jump depth {depth} from base chain '{chain}' exceeds maximum {max}"
  | .invalidExpression kind reason => s!"invalid {kind.word} expression: {reason}"
  | .ruleNotFound chain handle => s!"rule {handle} not found in chain '{chain}'"
  | .rulesetLoad path reason => s!"failed to load ruleset '{path}': {reason}"
  | .io text => s!"io error: {text}"

end EngineError

/-! ### Traversals -/

/-- Why a traversal was given up. -/
inductive EvalError where
  | stackOverflow (chain : String) (rule depth : Nat)
  | unknownChain (chain : String) (rule : Nat) (target : ChainId)
  | stepBudgetExhausted (chain : String) (budget : Nat)
  | notBaseChain (id : ChainId)
deriving DecidableEq, Repr

namespace EvalError

def message : EvalError → String
  | .stackOverflow chain rule depth =>
    s!"jump stack overflow at chain '{chain}' rule {rule} (depth {depth})"
  | .unknownChain chain rule target =>
    s!"rule {rule} in chain '{chain}' targets missing chain {target.text}"
  | .stepBudgetExhausted chain budget =>
    s!"step budget of {budget} rules exhausted in chain '{chain}'"
  | .notBaseChain id => s!"chain {id.text} is not a base chain"

/-- The short word for the error, as counted in metrics. -/
def reason : EvalError → String
  | .stackOverflow .. => "stack_overflow"
  | .unknownChain .. => "unknown_chain"
  | .stepBudgetExhausted .. => "step_budget"
  | .notBaseChain _ => "not_base_chain"

end EvalError

/-! ### Failures of the program -/

/-- What is wrong with a configuration. -/
inductive ConfigError where
  | fileNotFound (path : String)
  | parseFailed (reason : String)
  | invalidValue (field reason : String)
deriving DecidableEq, Repr

def ConfigError.message : ConfigError → String
  | .fileNotFound path => s!"config file not found: {path}"
  | .parseFailed reason => s!"failed to parse config: {reason}"
  | .invalidValue field reason => s!"invalid config value for '{field}': {reason}"

/-- At which stage a ruleset was refused. -/
inductive RulesetError where
  | build (reason : String)
  | validation (reason : String)
  | load (path reason : String)
deriving DecidableEq, Repr

def RulesetError.message : RulesetError → String
  | .build reason => s!"build failed: {reason}"
  | .validation reason => s!"validation failed: {reason}"
  | .load path reason => s!"load failed: {path}: {reason}"

/-- What is wrong with an input that is not a ruleset. -/
inductive ParseError where
  | unsupportedFormat (format : String)
  | failed (offset : Nat) (reason : String)
  | tooLarge (size max : Nat)
deriving DecidableEq, Repr

def ParseError.message : ParseError → String
  | .unsupportedFormat format => s!"unsupported format: {format}"
  | .failed offset reason => s!"parse failed at offset {offset}: {reason}"
  | .tooLarge size max => s!"input too large: {size} bytes (max: {max})"

/-- A failure of some part of the program. -/
inductive Failure where
  | config (error : ConfigError)
  | ruleset (error : RulesetError)
  | parse (error : ParseError)
  | io (text : String)
deriving DecidableEq, Repr

namespace Failure

def message : Failure → String
  | .config error => "config error: " ++ error.message
  | .ruleset error => "ruleset error: " ++ error.message
  | .parse error => "parse error: " ++ error.message
  | .io text => "io error: " ++ text

/-- A refused change is a failure to load, to validate or to build. -/
def ofEngine : EngineError → Failure
  | .rulesetLoad path reason => .ruleset (.load path reason)
  | .io text => .io text
  | e@(.chainLoop _) => .ruleset (.validation e.message)
  | e@(.jumpToBaseChain ..) => .ruleset (.validation e.message)
  | e@(.danglingJump ..) => .ruleset (.validation e.message)
  | e@(.jumpDepthExceeded ..) => .ruleset (.validation e.message)
  | e => .ruleset (.build e.message)

end Failure

end RuleChain
