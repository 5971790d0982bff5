/-! # Engine settings

  The settings that the engine itself looks at. They are the part of a configuration that tables
  and evaluators are made from.
-/

namespace RuleChain

/-- Settings of the engine. -/
structure EngineSettings where
  /-- Whether marked packets are traced. -/
  traceEnabled : Bool
  /-- How many rules one traversal may visit. -/
  maxSteps : Nat
  /-- The number of statistics shards; zero leaves it to the machine. -/
  statsShards : Nat
  /-- How many trace events a channel holds. -/
  traceBuffer : Nat
deriving DecidableEq, Repr

namespace EngineSettings

/-- The settings that hold where none are given. -/
def default : EngineSettings where
  traceEnabled := false
  maxSteps := 65536
  statsShards := 0
  traceBuffer := 1024

instance : Inhabited EngineSettings := ⟨default⟩

/-- The number of shards in effect on a machine that runs `parallelism` threads at once. -/
def effectiveShards (settings : EngineSettings) (parallelism : Nat) : Nat :=
  if settings.statsShards = 0 then parallelism else settings.statsShards

end EngineSettings

end RuleChain
