import RuleChain.Error
import RuleChain.Stats
import RuleChain.Telemetry.Metrics
import RuleChain.Trace

/-! # Notices

  What the engine tells an operator. A notice says what happened; the log line and the metrics
  that come of it are two readings of the same notice.
-/

namespace RuleChain

/-- Something worth telling an operator. -/
inductive Notice where
  | chainAdded (table chain : String) (id : ChainId)
  | commitRejected (table : String) (error : EngineError)
  | committed (table : String) (sequence changes activeRules : Nat)
  /-- A transaction was undone; the number of changes is not zero. -/
  | aborted (table : String) (changes : Nat)
  | rulesetApplied (table : String) (chains rules : Nat)
  /-- A traversal was given up and its packet dropped. -/
  | evaluationAborted (table : String) (base : ChainId) (error : EvalError)
  /-- A trace event for the log. -/
  | traced (event : TraceEvent)
  /-- A trace event was lost because the channel was full. -/
  | traceDropped
  /-- The counters of a base chain. -/
  | counted (table chain : String) (counters : Counters)
  /-- An environment variable does not hold a value of the given kind. -/
  | variableIgnored (kind key value : String)
deriving DecidableEq, Repr

/-! ### The log -/

inductive LogLevel where
  | debug
  | info
  | warn
  | error
deriving DecidableEq, Repr

def LogLevel.word : LogLevel → String
  | .debug => "DEBUG"
  | .info => "INFO"
  | .warn => "WARN"
  | .error => "ERROR"

/-- A line of the log. -/
structure LogRecord where
  level : LogLevel
  message : String
  fields : List (String × String)
deriving DecidableEq, Repr

namespace Notice

/-- The handle of a rule, or its absence, as a log field. -/
def handleText : Option Nat → String
  | some handle => "Some(" ++ toString handle ++ ")"
  | none => "None"

/-- The log line of a notice, if it has one. -/
def logRecord? : Notice → Option LogRecord
  | .chainAdded table chain id =>
    some ⟨.debug, "chain added", [("table", table), ("chain", chain), ("id", id.text)]⟩
  | .commitRejected table error =>
    some ⟨.warn, "ruleset commit rejected", [("table", table), ("error", error.message)]⟩
  | .committed table sequence changes activeRules =>
    some ⟨.info, "ruleset committed",
      [("table", table), ("generation", toString sequence), ("changes", toString changes),
        ("active_rules", toString activeRules)]⟩
  | .aborted table changes =>
    some ⟨.debug, "transaction aborted", [("table", table), ("changes", toString changes)]⟩
  | .rulesetApplied table chains rules =>
    some ⟨.info, "ruleset applied",
      [("table", table), ("chains", toString chains), ("rules", toString rules)]⟩
  | .evaluationAborted table base error =>
    some ⟨.error, "traversal aborted, dropping packet",
      [("table", table), ("base", base.text), ("reason", error.reason), ("error", error.message)]⟩
  | .traced event =>
    some ⟨.info, event.text,
      [("table", event.table), ("chain", event.chain), ("rule", handleText event.rule),
        ("verdict", event.verdict.logText)]⟩
  | .traceDropped => none
  | .counted .. => none
  | .variableIgnored kind key value =>
    some ⟨.warn, s!"failed to parse {kind} from env var, ignoring",
      [("env_key", key), ("value", value)]⟩

/-- Writes the metrics of a notice. -/
def record (metrics : Metrics) : Notice → Metrics
  | .committed table _ _ activeRules =>
    (metrics.increment (EngineMetric.generationsCommitted.key [("table", table)])).set
      (EngineMetric.activeRules.key [("table", table)]) activeRules
  | .evaluationAborted _ _ error =>
    metrics.increment (EngineMetric.evaluationAborts.key [("reason", error.reason)])
  | .traceDropped => metrics.increment (EngineMetric.traceDropped.key [])
  | .counted table chain counters =>
    let labels := [("table", table), ("chain", chain)]
    (metrics.raise (EngineMetric.chainPackets.key labels) counters.packets.toNat).raise
      (EngineMetric.chainBytes.key labels) counters.bytes.toNat
  | _ => metrics

end Notice

/-! ### Collected notices -/

/-- The log lines not yet read and the metrics so far. -/
structure Telemetry where
  log : List LogRecord
  metrics : Metrics
deriving DecidableEq, Repr

namespace Telemetry

def empty : Telemetry := ⟨[], []⟩

instance : Inhabited Telemetry := ⟨empty⟩

/-- Takes notices in order. -/
def add (telemetry : Telemetry) (notices : List Notice) : Telemetry where
  log := telemetry.log ++ notices.filterMap Notice.logRecord?
  metrics := notices.foldl Notice.record telemetry.metrics

end Telemetry

end RuleChain
