import RuleChain.Command.Error
import RuleChain.Command.Invocation
import RuleChain.Config.File
import RuleChain.Evaluator
import RuleChain.Report.Config
import RuleChain.Report.Evaluation
import RuleChain.Report.Ruleset
import RuleChain.Ruleset.Build
import RuleChain.Ruleset.File

/-! # Running commands

  From a command line and its surroundings to what is printed and the exit code.

  - Every command but `config` needs a usable configuration before it starts.
  - A report that cannot be printed is an error of its own, which comes before the error that the
    report is about.
-/

namespace RuleChain

/-- What a run depends on beside its command line. -/
structure Surroundings where
  files : Files
  env : Environment
  /-- How many threads the machine runs at once. -/
  parallelism : Nat
  /-- Why nothing can be printed, if nothing can. -/
  outputFault : Option String

/-- What a run leaves behind. -/
structure Outcome where
  exitCode : UInt8
  stdout : String
  stderr : String
deriving DecidableEq, Repr

namespace Outcome

/-- The end of a run that has printed something. -/
def ended (printed : String) : Option CommandError → Outcome
  | none => ⟨0, printed, ""⟩
  | some error => ⟨error.exitCode, printed, "error: " ++ error.message ++ "\n"⟩

/-- The end of a run without a report. -/
def failed (error : CommandError) : Outcome := ended "" (some error)

end Outcome

/-! ### The packet of a request -/

namespace EvaluationRequest

/-- The packet that a request describes. A network header at the start of the buffer tells where the
transport header is; otherwise the request has to. -/
def toPacket (request : EvaluationRequest) : Except CommandError Packet := do
  let data ← (Hex.readDump request.packet).mapError fun e =>
    .packet ("invalid hex: " ++ e.message)
  if data.isEmpty then throw (.packet "packet is empty")
  let beyond := fun (header : String) (offset : UInt64) =>
    CommandError.packet
      s!"{header} offset {offset.toNat} is beyond the packet ({data.length} bytes)"
  let packet ←
    match request.networkOffset with
    | none => pure (Packet.ipv4 data)
    | some offset =>
      if offset = 0 then pure (Packet.ipv4 data)
      else if offset.toNat < data.length then
        pure { Packet.ofBytes data with networkOffset := offset }
      else throw (beyond "network" offset)
  let packet ←
    match request.transportOffset with
    | none => pure packet
    | some offset =>
      if data.length < offset.toNat then throw (beyond "transport" offset)
      else pure { packet with transportOffset := some offset }
  return { packet with ns := request.ns, traced := request.traced }

end EvaluationRequest

/-! ### The tasks -/

namespace Task

/-- The base chain with a name. -/
def baseChain? (t : Table) (name : String) : Option ChainId :=
  ((t.chains.lookup? name).filter (·.isBase)).map (·.id)

/-- The table that a ruleset file makes. -/
def buildTable (around : Surroundings) (settings : EngineSettings) (path : String) :
    Except EngineError Table := do
  let ruleset ← Ruleset.load around.files path
  ruleset.build settings around.parallelism

/-- Sends a packet through the ruleset of a request. -/
def send (around : Surroundings) (settings : EngineSettings) (request : EvaluationRequest)
    (packet : Packet) : Except CommandError EvaluationReport := do
  let t ← (buildTable around settings request.ruleset).mapError .ruleset
  match baseChain? t request.chain with
  | none => throw (.command s!"'{request.chain}' is not a base chain in {request.ruleset}")
  | some base =>
    let settings := { settings with traceEnabled := settings.traceEnabled || request.traced }
    let done := (Evaluator.ofSettings settings).tryEvaluate t packet base
    let (sink, _) := (TraceSink.bounded (.create settings.traceBuffer)).emitAll done.events
    let (visited, aborted) :=
      match done.result with
      | .ok evaluation => (evaluation.visited, none)
      | .error e => (0, some e.message)
    return {
      ruleset := request.ruleset
      chain := request.chain
      packetLength := packet.data.length
      disposition := Evaluator.disposition done.result
      visited
      aborted
      trace := sink.drain.1 }

/-- Sends the packet of a request through its ruleset. -/
def evaluation (around : Surroundings) (settings : EngineSettings) (request : EvaluationRequest) :
    Except CommandError EvaluationReport :=
  request.toPacket >>= send around settings request

/-- Builds a ruleset file and reports on it. -/
def rulesetCheck (around : Surroundings) (settings : EngineSettings) (path : String) :
    RulesetReport × Option CommandError :=
  match buildTable around settings path with
  | .ok t => (.ofTable path t, none)
  | .error e => (⟨path, .error e.message⟩, some (.ruleset e))

/-- Reports whether a configuration file can be used. -/
def configCheck (around : Surroundings) (path : String) :
    ConfigCheckReport × Option CommandError :=
  match Config.loadFile around.files path around.env with
  | .ok _ => (⟨path, none⟩, none)
  | .error failure => (⟨path, some failure.message⟩, some (.config "configuration is invalid"))

/-- Shows a configuration, or one section of it. -/
def configView (around : Surroundings) (path : String) (sectionName : Option String) :
    Except CommandError ConfigReport := do
  let config ← (Config.loadFile around.files path around.env).mapError .core
  match sectionName with
  | none => return ⟨path, .whole, config⟩
  | some name =>
    match ConfigPart.ofSection? name with
    | some part => return ⟨path, part, config⟩
    | none => throw (.command s!"unknown section: {name} (expected: general, engine)")

/-- Whether the task is about the configuration itself. -/
def inspectsConfig : Task → Bool
  | .validateConfig => true
  | .showConfig _ => true
  | _ => false

end Task

/-! ### The whole run -/

namespace Invocation

/-- Prints a report, and then ends with an error if there is one. -/
def deliver (around : Surroundings) (format : ReportFormat) (report : Report)
    (error : Option CommandError) : Outcome :=
  match around.outputFault, format with
  | none, _ => .ended (report.render format) error
  | some fault, .text => .failed (.io fault)
  | some fault, .json => .failed (.json fault)

/-- Prints a report if there is one. -/
def deliverResult {α : Type} (around : Surroundings) (format : ReportFormat)
    (report : α → Report) : Except CommandError α → Outcome
  | .ok a => deliver around format (report a) none
  | .error error => .failed error

/-- Lets the log level of the command line win over the configured one. -/
def overrideLogLevel (invocation : Invocation) (config : Config) : Config :=
  { config with
    general.logLevel := invocation.logLevel.getD config.general.logLevel }

/-- The configuration that a task starts from. -/
def startingConfig (invocation : Invocation) (around : Surroundings) : Except CommandError Config :=
  if invocation.task.inspectsConfig then .ok (invocation.overrideLogLevel .default)
  else
    match Config.loadOrDefault around.files invocation.config around.env with
    | .ok config => .ok (invocation.overrideLogLevel config)
    | .error failure => .error (.core failure)

/-- The log has to have a known format before anything is done. -/
def checkLogFormat (general : GeneralSettings) : Except CommandError Unit :=
  if Config.logFormats.contains general.logFormat then .ok ()
  else
    .error (.config s!"unknown log format '{general.logFormat}', expected 'json' or 'pretty'")

/-- Carries out the task of a command line. -/
def run (invocation : Invocation) (around : Surroundings) : Outcome :=
  let ready := do
    let config ← invocation.startingConfig around
    checkLogFormat config.general
    return config
  let format := invocation.format
  match ready with
  | .error error => .failed error
  | .ok config =>
    match invocation.task with
    | .evaluate request =>
      deliverResult around format EvaluationReport.report
        (Task.evaluation around config.engine request)
    | .checkRuleset path =>
      let (report, error) := Task.rulesetCheck around config.engine path
      deliver around format report.report error
    | .validateConfig =>
      let (report, error) := Task.configCheck around invocation.config
      deliver around format report.report error
    | .showConfig name =>
      deliverResult around format ConfigReport.report
        (Task.configView around invocation.config name)

/-- What a reader is told about the command line. -/
def usage : String :=
  "Usage: ironwall [--config <FILE>] [--log-level <LEVEL>] [--output text|json] <COMMAND>\n\n"
    ++ "Commands:\n"
    ++ "  eval             Evaluate one packet against a ruleset\n"
    ++ "  check            Build a ruleset and run commit-time validation\n"
    ++ "  config validate  Validate the configuration file and report errors\n"
    ++ "  config show      Show the effective configuration\n"
    ++ "  help             Print this message\n"

/-- The paths of the files that the task is about. -/
def paths (invocation : Invocation) : List String :=
  match invocation.task with
  | .evaluate request => [invocation.config, request.ruleset]
  | .checkRuleset path => [invocation.config, path]
  | _ => [invocation.config]

end Invocation

/-- Reads a command line and carries it out. -/
def Outcome.ofArguments (around : Surroundings) (args : List String) : Outcome :=
  match Invocation.parse args with
  | .error .info => ⟨0, if around.outputFault.isNone then Invocation.usage else "", ""⟩
  | .error .misuse => ⟨2, "", Invocation.usage⟩
  | .ok invocation => invocation.run around

end RuleChain
