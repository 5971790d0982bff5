import RuleChain.Config.Basic
import RuleChain.Decode.Basic
import RuleChain.Toml.Document

/-! # Configurations as documents

  A configuration file has the sections `general` and `engine`. Sections and keys that are
  missing have their defaults, and unknown ones are not looked at.
-/

namespace RuleChain

/-! ### Reading -/

namespace Decode

def general? (d : Datum) : Option GeneralSettings := do
  match ← fields? ["log_level", "log_format"] .anything d with
  | [logLevel, logFormat] =>
    let default := GeneralSettings.default
    return ⟨← withDefault default.logLevel string? logLevel,
      ← withDefault default.logFormat string? logFormat⟩
  | _ => none

def engine? (d : Datum) : Option EngineSettings := do
  match ← fields? ["trace_enabled", "max_steps", "stats_shards", "trace_buffer"] .anything d with
  | [traceEnabled, maxSteps, statsShards, traceBuffer] =>
    let default := EngineSettings.default
    return ⟨← withDefault default.traceEnabled bool? traceEnabled,
      ← withDefault default.maxSteps word? maxSteps,
      ← withDefault default.statsShards word? statsShards,
      ← withDefault default.traceBuffer word? traceBuffer⟩
  | _ => none

def config? (d : Datum) : Option Config := do
  match ← fields? ["general", "engine"] .anything d with
  | [general, engine] =>
    return ⟨← withDefault .default general? general, ← withDefault .default engine? engine⟩
  | _ => none

end Decode

namespace Config

/-- Reads a configuration. What exactly is wrong with a text is not told. -/
def parse (text : String) : Except ConfigError Config :=
  match (Toml.parse text).bind fun entries => Decode.config? (.table entries) with
  | none => .error (.parseFailed "TOML parse error")
  | some config => .ok config

/-! ### Loading -/

/-- Takes a configuration from the text of a file and from the environment. What the file says has
to be valid on its own. -/
def load (text : String) (env : Environment) : Except ConfigError Config := do
  let config ← parse text
  config.validate
  let (config, _) := config.override env
  config.validate
  return config

/-- Takes a configuration from the environment alone. -/
def ofEnvironment (env : Environment) : Except ConfigError Config := do
  let (config, _) := default.override env
  config.validate
  return config

/-! ### Writing -/

/-- The numbers from here on do not fit the format of the files. -/
def numberBound : Nat := 0x8000000000000000

/-- A number that the format of the files can hold. -/
def writeNumber (n : Nat) : Option String :=
  if n < numberBound then some (toString n) else none

def writeFlag (b : Bool) : String := if b then "true" else "false"

/-- Writes a text in quotes; levels and formats that are allowed are plain words. -/
def writeWord (word : String) : String := "\"" ++ word ++ "\""

def writeGeneral (general : GeneralSettings) : String :=
  "log_level = " ++ writeWord general.logLevel ++ "\nlog_format = " ++ writeWord general.logFormat
    ++ "\n"

/-- Writes the engine section, unless a number is too large for the format. -/
def writeEngine (engine : EngineSettings) : Option String := do
  let maxSteps ← writeNumber engine.maxSteps
  let statsShards ← writeNumber engine.statsShards
  let traceBuffer ← writeNumber engine.traceBuffer
  return "trace_enabled = " ++ writeFlag engine.traceEnabled ++ "\nmax_steps = " ++ maxSteps
    ++ "\nstats_shards = " ++ statsShards ++ "\ntrace_buffer = " ++ traceBuffer ++ "\n"

/-- Writes a whole configuration. -/
def write (config : Config) : Option String := do
  let engine ← writeEngine config.engine
  return "[general]\n" ++ writeGeneral config.general ++ "\n[engine]\n" ++ engine

end Config

end RuleChain
