import RuleChain.Settings
import RuleChain.Table.Basic
import RuleChain.Telemetry.Channel
import RuleChain.Traversal

/-! # Evaluation

  An evaluator sends packets through a table. It pins a generation, walks, counts the packet if
  the policy decided it, and releases the generation again on every way out.

  - A packet of another namespace than the base chain's is accepted without visiting a rule.
  - A walk that was given up drops its packet and leaves a notice.
-/

namespace RuleChain

/-- The result of a walk that was not given up. -/
structure Evaluation where
  disposition : Disposition
  /-- The number of rules visited. -/
  visited : Nat
deriving DecidableEq, Repr

/-- How packets are sent through a table. -/
structure Evaluator where
  /-- Whether marked packets are traced. -/
  traceEnabled : Bool
  /-- How many rules one walk may visit. -/
  maxSteps : Nat
  /-- The worker that the packets are counted by. -/
  worker : Nat
deriving DecidableEq, Repr

/-- What an evaluation leaves behind. -/
structure Evaluated where
  result : Except EvalError Evaluation
  /-- The trace of the packet, if it was traced. -/
  events : List TraceEvent
  table : Table

namespace Evaluator

/-- An evaluator that traces nothing. -/
def plain : Evaluator := ⟨false, EngineSettings.default.maxSteps, 0⟩

instance : Inhabited Evaluator := ⟨plain⟩

/-- An evaluator with given settings; every walk may visit at least one rule. -/
def ofSettings (settings : EngineSettings) : Evaluator :=
  ⟨settings.traceEnabled, max settings.maxSteps 1, 0⟩

/-- The journey of a packet through a table, pinned to its current generation. -/
def journey (ev : Evaluator) (t : Table) (packet : Packet) : Journey where
  table := t.name
  chains := t.chains
  generation := t.generation
  packet
  budget := ev.maxSteps

/-- The base chain with an id. -/
def baseChain? (t : Table) (id : ChainId) : Option (Chain × BaseChain) := do
  let chain ← t.chains.get? id
  let base ← chain.base
  return (chain, base)

/-- Sends a packet through a base chain; `count` counts it in the statistics of the chain. -/
@[specialize]
def tryEvaluateBy {m : Type → Type} [Monad m] (access : Journey.Access m)
    (count : Table → ChainId → BaseChain → Nat → UInt64 → m Table) (ev : Evaluator) (t : Table)
    (packet : Packet) (base : ChainId) : m Evaluated :=
  let pinned := t.generation
  let t := t.enter
  match baseChain? t base with
  | none => return ⟨.error (.notBaseChain base), [], t.leave pinned⟩
  | some (chain, info) =>
    if info.ns ≠ packet.ns then return ⟨.ok ⟨.accept, 0⟩, [], t.leave pinned⟩
    else do
      let j := ev.journey t packet
      let walk ← j.startBy access chain
      let traced := fun (events : List TraceEvent) =>
        if packet.traced && ev.traceEnabled then events else []
      match walk.result with
      | .error error => return ⟨.error error, traced walk.events, t.leave pinned⟩
      | .ok (.byRule disposition) =>
        return ⟨.ok ⟨disposition, walk.visited⟩, traced walk.events, t.leave pinned⟩
      | .ok .byPolicy =>
        let events := walk.events ++ [j.policyEvent chain info.policy]
        let t ← count t base info ev.worker (UInt64.ofNat packet.data.length)
        return ⟨.ok ⟨info.policy.disposition, walk.visited⟩, traced events, t.leave pinned⟩

/-- Sends a packet through a base chain. -/
def tryEvaluate (ev : Evaluator) (t : Table) (packet : Packet) (base : ChainId) : Evaluated :=
  (tryEvaluateBy .direct (fun t base _ worker length => t.modifyChain base (·.record worker length))
    ev t packet base).run

/-- The disposition of a packet: what was given up is dropped. -/
def disposition : Except EvalError Evaluation → Disposition
  | .ok evaluation => evaluation.disposition
  | .error _ => .drop

/-- What is told about an evaluation. -/
def notices (t : Table) (base : ChainId) : Except EvalError Evaluation → List Notice
  | .ok _ => []
  | .error error => [.evaluationAborted t.name base error]

end Evaluator

/-- What is told when the counters of all base chains are published. -/
def Table.countNotices (t : Table) : List Notice :=
  t.chains.toList.filterMap fun chain =>
    chain.counters?.map fun counters => .counted t.name chain.name counters

end RuleChain
