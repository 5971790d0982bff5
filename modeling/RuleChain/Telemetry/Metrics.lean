/-! # Metrics

  A registry of numbers, each known by a name and labels. A number exists once it has been
  written to. A counter only grows: it is added to, or raised to a total that was counted
  elsewhere. A gauge is set.
-/

namespace RuleChain

/-- The name and the labels of a metric. -/
structure MetricKey where
  name : String
  labels : List (String × String)
deriving DecidableEq, Repr

/-- The key as one text: the name, then the labels in braces. -/
def MetricKey.text (key : MetricKey) : String :=
  key.name ++ "\x7b" ++ ",".intercalate (key.labels.map fun (label, value) => label ++ "=" ++ value)
    ++ "\x7d"

/-- The metrics written so far, in the order of their first writing. -/
abbrev Metrics := List (MetricKey × Nat)

namespace Metrics

def get? (metrics : Metrics) (key : MetricKey) : Option Nat :=
  (metrics.find? (·.1 == key)).map (·.2)

/-- Writes the value that `f` makes of the old one; a new metric starts at zero. -/
def update (metrics : Metrics) (key : MetricKey) (f : Nat → Nat) : Metrics :=
  match metrics with
  | [] => [(key, f 0)]
  | (k, value) :: rest =>
    if k = key then (k, f value) :: rest else (k, value) :: update rest key f

/-- Adds one to a counter. -/
def increment (metrics : Metrics) (key : MetricKey) : Metrics := metrics.update key (· + 1)

/-- Raises a counter to a total, unless it is there already. -/
def raise (metrics : Metrics) (key : MetricKey) (total : Nat) : Metrics :=
  metrics.update key (max · total)

/-- Sets a gauge. -/
def set (metrics : Metrics) (key : MetricKey) (value : Nat) : Metrics :=
  metrics.update key fun _ => value

end Metrics

/-! ### The metrics of the engine -/

/-- Whether a metric only grows. -/
inductive MetricKind where
  | counter
  | gauge
deriving DecidableEq, Repr

def MetricKind.word : MetricKind → String
  | .counter => "counter"
  | .gauge => "gauge"

/-- A metric of the engine. -/
inductive EngineMetric where
  | chainPackets
  | chainBytes
  | evaluationAborts
  | traceDropped
  | generationsCommitted
  | activeRules
deriving DecidableEq, Repr

namespace EngineMetric

def name : EngineMetric → String
  | .chainPackets => "ironwall_engine_chain_packets_total"
  | .chainBytes => "ironwall_engine_chain_bytes_total"
  | .evaluationAborts => "ironwall_engine_evaluation_aborts_total"
  | .traceDropped => "ironwall_engine_trace_dropped_total"
  | .generationsCommitted => "ironwall_engine_generations_committed_total"
  | .activeRules => "ironwall_engine_active_rules"

def kind : EngineMetric → MetricKind
  | .activeRules => .gauge
  | _ => .counter

/-- What the metric tells an operator. -/
def description : EngineMetric → String
  | .chainPackets => "Packets that reached a base chain policy"
  | .chainBytes => "Bytes of packets that reached a base chain policy"
  | .evaluationAborts => "Traversals aborted on an invariant violation (packet dropped)"
  | .traceDropped => "Trace events dropped because the sink buffer was full"
  | .generationsCommitted => "Ruleset generations committed by the control plane"
  | .activeRules => "Rules visible in the current generation"

/-- All metrics of the engine. -/
def all : List EngineMetric :=
  [.chainPackets, .chainBytes, .evaluationAborts, .traceDropped, .generationsCommitted,
    .activeRules]

/-- The metric with labels. -/
def key (metric : EngineMetric) (labels : List (String × String)) : MetricKey :=
  ⟨metric.name, labels⟩

end EngineMetric

end RuleChain
