import RuleChain.Error
import RuleChain.Settings
import RuleChain.Telemetry.Notice
import RuleChain.Text.Decimal

/-! # Configuration

  A configuration has a general section, about the log, and an engine section. Its values come from
  three places: environment variables win over the configuration file, and the file wins over
  the defaults. A variable that does not hold a value of the type of its field is ignored, with a
  notice.
-/

namespace RuleChain

/-- The general section. -/
structure GeneralSettings where
  logLevel : String
  logFormat : String
deriving DecidableEq, Repr

def GeneralSettings.default : GeneralSettings := ⟨"info", "json"⟩

/-- A configuration. -/
structure Config where
  general : GeneralSettings
  engine : EngineSettings
deriving DecidableEq, Repr

namespace Config

/-- The configuration that holds where nothing is given. -/
def default : Config := ⟨.default, .default⟩

instance : Inhabited Config := ⟨default⟩

/-! ### Validity -/

def logLevels : List String := ["trace", "debug", "info", "warn", "error"]

def logFormats : List String := ["json", "pretty"]

def maxStatsShards : Nat := 1024

/-- The first field whose value is not allowed, in the order of the sections. -/
def validate (config : Config) : Except ConfigError Unit :=
  if !logLevels.contains config.general.logLevel then
    .error (.invalidValue "general.log_level" ("must be one of: " ++ ", ".intercalate logLevels))
  else if !logFormats.contains config.general.logFormat then
    .error (.invalidValue "general.log_format" ("must be one of: " ++ ", ".intercalate logFormats))
  else if config.engine.maxSteps = 0 then
    .error (.invalidValue "engine.max_steps" "must be greater than 0")
  else if maxStatsShards < config.engine.statsShards then
    .error (.invalidValue "engine.stats_shards" s!"must be at most {maxStatsShards} (0 = auto)")
  else if config.engine.traceBuffer = 0 then
    .error (.invalidValue "engine.trace_buffer" "must be greater than 0")
  else .ok ()

end Config

/-! ### Environment variables -/

/-- Environment variables with their values. -/
abbrev Environment := List (String × String)

namespace Environment

def get? (env : Environment) (name : String) : Option String :=
  (env.find? (·.1 == name)).map (·.2)

/-- A truth value as a variable may hold it. -/
def flag? (text : String) : Option Bool :=
  if text = "true" then some true else if text = "false" then some false else none

/-- A natural number of one machine word as a variable may hold it. -/
def word? (text : String) : Option Nat := Text.natural? UInt64.size text

/-- The value of a variable of some type, or else the old value, and what is told about it. -/
def override {α : Type} (env : Environment) (kind : String) (read : String → Option α)
    (name : String) (old : α) : α × List Notice :=
  match env.get? name with
  | none => (old, [])
  | some text =>
    match read text with
    | some value => (value, [])
    | none => (old, [.variableIgnored kind name text])

end Environment

namespace Config

/-- The names of the variables for the fields. -/
def logLevelVariable : String := "IRONWALL_GENERAL_LOG_LEVEL"
def logFormatVariable : String := "IRONWALL_GENERAL_LOG_FORMAT"
def traceEnabledVariable : String := "IRONWALL_ENGINE_TRACE_ENABLED"
def maxStepsVariable : String := "IRONWALL_ENGINE_MAX_STEPS"
def statsShardsVariable : String := "IRONWALL_ENGINE_STATS_SHARDS"
def traceBufferVariable : String := "IRONWALL_ENGINE_TRACE_BUFFER"

/-- All variables that are looked at. -/
def variableNames : List String :=
  [logLevelVariable, logFormatVariable, traceEnabledVariable, maxStepsVariable, statsShardsVariable,
    traceBufferVariable]

/-- Lets the environment win over a configuration. -/
def override (env : Environment) (config : Config) : Config × List Notice :=
  let (logLevel, n₁) := env.override "string" some logLevelVariable config.general.logLevel
  let (logFormat, n₂) := env.override "string" some logFormatVariable config.general.logFormat
  let (traceEnabled, n₃) :=
    env.override "bool" Environment.flag? traceEnabledVariable config.engine.traceEnabled
  let (maxSteps, n₄) :=
    env.override "usize" Environment.word? maxStepsVariable config.engine.maxSteps
  let (statsShards, n₅) :=
    env.override "usize" Environment.word? statsShardsVariable config.engine.statsShards
  let (traceBuffer, n₆) :=
    env.override "usize" Environment.word? traceBufferVariable config.engine.traceBuffer
  (⟨⟨logLevel, logFormat⟩, ⟨traceEnabled, maxSteps, statsShards, traceBuffer⟩⟩,
    n₁ ++ n₂ ++ n₃ ++ n₄ ++ n₅ ++ n₆)

end Config

end RuleChain
