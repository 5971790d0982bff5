import RuleChain.Command.Grammar
import RuleChain.Packet
import RuleChain.Report.Basic
import RuleChain.Text.Decimal

/-! # Invocations

  The command line of the program: `eval` sends one packet through a ruleset, `check` builds a
  ruleset, and `config validate` and `config show` look at the configuration.
-/

namespace RuleChain

/-! ### What is asked for -/

/-- The packet to evaluate, and where. -/
structure EvaluationRequest where
  /-- The path of the ruleset file. -/
  ruleset : String
  /-- The name of the base chain. -/
  chain : String
  /-- The packet as hexadecimal text. -/
  packet : String
  networkOffset : Option UInt64
  transportOffset : Option UInt64
  ns : Namespace
  /-- Whether the packet is to be traced. -/
  traced : Bool
deriving DecidableEq, Repr

/-- What the program is to do. -/
inductive Task where
  | evaluate (request : EvaluationRequest)
  | checkRuleset (path : String)
  | validateConfig
  | showConfig (sectionName : Option String)
deriving DecidableEq, Repr

/-- A command line that follows the grammar. -/
structure Invocation where
  /-- The path of the configuration file. -/
  config : String
  /-- The log level that wins over the configured one. -/
  logLevel : Option String
  format : ReportFormat
  task : Task
deriving DecidableEq, Repr

/-! ### The commands -/

namespace Invocation

open Grammar

def isPath (text : String) : Bool := text ≠ ""

/-- A number of one machine word. -/
def offset? (text : String) : Option UInt64 := (Text.natural? UInt64.size text).map UInt64.ofNat

def namespace? (text : String) : Option Namespace :=
  (Text.signedNatural? UInt32.size text).map fun n => ⟨UInt32.ofNat n⟩

def format? (text : String) : Option ReportFormat :=
  [ReportFormat.text, .json].find? (·.word = text)

/-- An option with a value. -/
def option (name : String) (short : Option Char) (accepts : String → Bool) : Opt :=
  ⟨name, short, .value accepts, false⟩

def anyText : String → Bool := fun _ => true

def help : Opt := ⟨"help", some 'h', .info, false⟩

/-- The options that can be given to every command. -/
def shared : List Opt :=
  [option "log-level" none anyText, option "output" none fun text => (format? text).isSome, help]

/-- The ruleset file. -/
def rulesetOption : Opt := { option "ruleset" (some 'r') isPath with isRequired := true }

def evalCommand : Command :=
  .node "eval"
    ([rulesetOption, option "chain" none anyText,
      { option "packet" (some 'p') anyText with isRequired := true },
      option "network-offset" none fun text => (offset? text).isSome,
      option "transport-offset" none fun text => (offset? text).isSome,
      option "namespace" none fun text => (namespace? text).isSome,
      ⟨"trace", some 't', .flag, false⟩] ++ shared)
    []

def checkCommand : Command := .node "check" (rulesetOption :: shared) []

def helpCommand : Command := .node "help" [] []

def configCommand : Command :=
  .node "config" shared
    [.node "validate" shared [], .node "show" (option "section" none anyText :: shared) [],
      helpCommand]

/-- The program. -/
def program : Command :=
  .node "ironwall"
    (option "config" (some 'c') isPath :: ⟨"version", some 'V', .info, false⟩ :: shared)
    [evalCommand, checkCommand, configCommand, helpCommand]

/-! ### Reading -/

/-- The task of a command, given the names of the command and of those around it. -/
def task? (levels : List Level) : Option Task :=
  let value := value? levels
  match levels.map (·.command.name) with
  | "eval" :: _ => do
    return .evaluate {
      ruleset := ← value "ruleset"
      chain := (value "chain").getD "input"
      packet := ← value "packet"
      networkOffset := (value "network-offset").bind offset?
      transportOffset := (value "transport-offset").bind offset?
      ns := ((value "namespace").bind namespace?).getD .initial
      traced := hasFlag levels "trace" }
  | "check" :: _ => (value "ruleset").map .checkRuleset
  | "validate" :: _ => some .validateConfig
  | "show" :: _ => some (.showConfig (value "section"))
  | _ => none

/-- Reads a command line. -/
def parse (args : List String) : Except Refusal Invocation := do
  let levels ← Grammar.read program args
  match task? levels with
  | none => throw .misuse
  | some task =>
    return {
      config := (value? levels "config").getD "ironwall.toml"
      logLevel := value? levels "log-level"
      format := ((value? levels "output").bind format?).getD .text
      task }

end Invocation

end RuleChain
