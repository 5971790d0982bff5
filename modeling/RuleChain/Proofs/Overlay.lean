import RuleChain.Config.Document

/-! # Overlays of configurations

  Every field of a configuration may be given in the environment and in the file, and has a default:

  - `Field.fileValue` is the value from the file, or else the default;
  - `Field.effective` is the overlay: the value from the environment, or else the one from the file;
  - `Valid` says which values are allowed, for either of them.

  `load_overlay` says what loading makes of them. A configuration that is loaded is the overlay, and
  the overlay is valid; but a file that is not valid on its own is refused, even where the
  environment puts allowed values in place of the others (`load_refuses_mended`).
-/

namespace RuleChain

namespace Config

/-- The fields of a configuration. -/
inductive Field where
  | logLevel
  | logFormat
  | traceEnabled
  | maxSteps
  | statsShards
  | traceBuffer
deriving DecidableEq, Repr

namespace Field

/-- What the values of a field are. -/
abbrev Value : Field → Type
  | logLevel | logFormat => String
  | traceEnabled => Bool
  | maxSteps | statsShards | traceBuffer => Nat

/-! ### Names -/

def sectionName : Field → String
  | logLevel | logFormat => "general"
  | _ => "engine"

def key : Field → String
  | logLevel => "log_level"
  | logFormat => "log_format"
  | traceEnabled => "trace_enabled"
  | maxSteps => "max_steps"
  | statsShards => "stats_shards"
  | traceBuffer => "trace_buffer"

/-- Where the value stands in a section that is written without keys. -/
def place : Field → Nat
  | logLevel => 0
  | logFormat => 1
  | traceEnabled => 0
  | maxSteps => 1
  | statsShards => 2
  | traceBuffer => 3

/-- The field as complaints name it. -/
def path (f : Field) : String := f.sectionName ++ "." ++ f.key

/-- The environment variable for the field. -/
def variableName (f : Field) : String :=
  "IRONWALL_" ++ f.sectionName.toUpper ++ "_" ++ f.key.toUpper

/-! ### Values -/

def default : (f : Field) → f.Value
  | logLevel => "info"
  | logFormat => "json"
  | traceEnabled => false
  | maxSteps => 65536
  | statsShards => 0
  | traceBuffer => 1024

/-- The value that the text of a variable stands for. -/
def ofText? : (f : Field) → String → Option f.Value
  | logLevel | logFormat => some
  | traceEnabled => Environment.flag?
  | maxSteps | statsShards | traceBuffer => Environment.word?

/-- The value that is written in a file. -/
def ofDatum? : (f : Field) → Datum → Option f.Value
  | logLevel | logFormat => Decode.string?
  | traceEnabled => Decode.bool?
  | maxSteps | statsShards | traceBuffer => Decode.word?

/-- The values that can be worked with. -/
def Allowed : (f : Field) → f.Value → Prop
  | logLevel, level => level ∈ logLevels
  | logFormat, format => format ∈ logFormats
  | traceEnabled, _ => True
  | maxSteps, n => 0 < n
  | statsShards, n => n ≤ maxStatsShards
  | traceBuffer, n => 0 < n

/-- The value in a configuration. -/
def get (config : Config) : (f : Field) → f.Value
  | logLevel => config.general.logLevel
  | logFormat => config.general.logFormat
  | traceEnabled => config.engine.traceEnabled
  | maxSteps => config.engine.maxSteps
  | statsShards => config.engine.statsShards
  | traceBuffer => config.engine.traceBuffer

end Field

/-- The configuration with given values. -/
def ofValues (values : (f : Field) → f.Value) : Config :=
  ⟨⟨values .logLevel, values .logFormat⟩,
    ⟨values .traceEnabled, values .maxSteps, values .statsShards, values .traceBuffer⟩⟩

theorem get_ofValues (values : (f : Field) → f.Value) (f : Field) :
    f.get (ofValues values) = values f := by
  cases f <;> rfl

/-- A configuration is nothing but the values of its fields. -/
theorem eq_of_get_eq {a b : Config} (h : ∀ f : Field, f.get a = f.get b) : a = b := by
  have hvalues : (fun f : Field => f.get a) = fun f => f.get b := funext h
  exact congrArg ofValues hvalues

/-- All values are allowed. -/
def Valid (values : (f : Field) → f.Value) : Prop := ∀ f : Field, f.Allowed (values f)

/-! ### The file -/

/-- A section is a record: a table, or its values in order. -/
def IsRecord : Datum → Prop
  | .table _ => True
  | .array _ => True
  | _ => False

namespace Field

variable (document : List (String × Datum)) (f : Field)

/-- What a section says about the field. -/
def inSection? : Datum → Option Datum
  | .table entries => (entries.find? (·.1 == f.key)).map (·.2)
  | .array items => items[f.place]?
  | _ => none

def section? : Option Datum := (document.find? (·.1 == f.sectionName)).map (·.2)

/-- What the file says about the field. -/
def inFile? : Option Datum := (f.section? document).bind f.inSection?

/-- The value from the file, or else the default. -/
def fileValue : f.Value := ((f.inFile? document).bind f.ofDatum?).getD f.default

/-- The value from the environment, or else the one from the file. -/
def effective (env : Environment) : f.Value :=
  ((env.get? f.variableName).bind f.ofText?).getD (f.fileValue document)

end Field

/-- Everything that the file says about a field is of the type of the field. -/
structure Readable (document : List (String × Datum)) : Prop where
  isRecord : ∀ (f : Field) d, f.section? document = some d → IsRecord d
  typed : ∀ (f : Field) d, f.inFile? document = some d → (f.ofDatum? d).isSome

/-- What is said about something has to be readable, and the default stands where nothing is said. -/
theorem withDefault_eq_some_iff {α : Type} {default v : α} {read : Datum → Option α}
    {x : Option Datum} :
    Decode.withDefault default read x = some v ↔
      (∀ d, x = some d → (read d).isSome) ∧ (x.bind read).getD default = v := by
  cases x with
  | none => simp [Decode.withDefault]
  | some d =>
    cases hread : read d <;> simp [Decode.withDefault, hread]

/-! ### Reading a file -/

section reading

variable {document : List (String × Datum)} {d : Datum} {x : Option Datum}

/-- Reads what is said about a field. -/
def Field.read? (f : Field) (said : Option Datum) : Option f.Value :=
  Decode.withDefault f.default f.ofDatum? said

/-- Only records have fields. -/
theorem isRecord_of_withDefault {α : Type} {default v : α} {names : List String}
    {k : List (Option Datum) → Option α}
    (h : Decode.withDefault default (fun d => Decode.fields? names .anything d >>= k) x = some v) :
    ∀ d, x = some d → IsRecord d := by
  rintro d rfl
  obtain ⟨fields, hfields, -⟩ := Option.bind_eq_some_iff.mp h
  cases d <;> trivial

theorem record_cases (h : ∀ d, x = some d → IsRecord d) :
    x = none ∨ (∃ entries, x = some (.table entries)) ∨ ∃ items, x = some (.array items) := by
  cases x with
  | none => exact Or.inl rfl
  | some d =>
    have hrecord := h d rfl
    cases d with
    | table entries => exact Or.inr (Or.inl ⟨entries, rfl⟩)
    | array items => exact Or.inr (Or.inr ⟨items, rfl⟩)
    | _ => contradiction

/-- The general section has to be a record, and its fields are read one by one. A section that is
missing says nothing about them. -/
theorem withDefault_general_iff {general : GeneralSettings} :
    Decode.withDefault .default Decode.general? x = some general ↔
      (∀ d, x = some d → IsRecord d) ∧
        Field.logLevel.read? (x.bind Field.logLevel.inSection?) = some general.logLevel ∧
        Field.logFormat.read? (x.bind Field.logFormat.inSection?) = some general.logFormat := by
  have hread : (∀ d, x = some d → IsRecord d) →
      Decode.withDefault .default Decode.general? x = do
        return ⟨← Field.logLevel.read? (x.bind Field.logLevel.inSection?),
          ← Field.logFormat.read? (x.bind Field.logFormat.inSection?)⟩ := by
    intro hrecord
    rcases record_cases hrecord with rfl | ⟨entries, rfl⟩ | ⟨items, rfl⟩ <;> rfl
  constructor
  · intro h
    have hrecord := isRecord_of_withDefault h
    rw [hread hrecord] at h
    obtain ⟨level, hlevel, h⟩ := Option.bind_eq_some_iff.mp h
    obtain ⟨format, hformat, h⟩ := Option.bind_eq_some_iff.mp h
    cases h
    exact ⟨hrecord, hlevel, hformat⟩
  · rintro ⟨hrecord, hlevel, hformat⟩
    rw [hread hrecord, hlevel, hformat]
    rfl

/-- The same for the engine section. -/
theorem withDefault_engine_iff {engine : EngineSettings} :
    Decode.withDefault .default Decode.engine? x = some engine ↔
      (∀ d, x = some d → IsRecord d) ∧
        Field.traceEnabled.read? (x.bind Field.traceEnabled.inSection?) =
          some engine.traceEnabled ∧
        Field.maxSteps.read? (x.bind Field.maxSteps.inSection?) = some engine.maxSteps ∧
        Field.statsShards.read? (x.bind Field.statsShards.inSection?) = some engine.statsShards ∧
        Field.traceBuffer.read? (x.bind Field.traceBuffer.inSection?) =
          some engine.traceBuffer := by
  have hread : (∀ d, x = some d → IsRecord d) →
      Decode.withDefault .default Decode.engine? x = do
        return ⟨← Field.traceEnabled.read? (x.bind Field.traceEnabled.inSection?),
          ← Field.maxSteps.read? (x.bind Field.maxSteps.inSection?),
          ← Field.statsShards.read? (x.bind Field.statsShards.inSection?),
          ← Field.traceBuffer.read? (x.bind Field.traceBuffer.inSection?)⟩ := by
    intro hrecord
    rcases record_cases hrecord with rfl | ⟨entries, rfl⟩ | ⟨items, rfl⟩ <;> rfl
  constructor
  · intro h
    have hrecord := isRecord_of_withDefault h
    rw [hread hrecord] at h
    obtain ⟨traceEnabled, htrace, h⟩ := Option.bind_eq_some_iff.mp h
    obtain ⟨maxSteps, hsteps, h⟩ := Option.bind_eq_some_iff.mp h
    obtain ⟨statsShards, hshards, h⟩ := Option.bind_eq_some_iff.mp h
    obtain ⟨traceBuffer, hbuffer, h⟩ := Option.bind_eq_some_iff.mp h
    cases h
    exact ⟨hrecord, htrace, hsteps, hshards, hbuffer⟩
  · rintro ⟨hrecord, htrace, hsteps, hshards, hbuffer⟩
    rw [hread hrecord, htrace, hsteps, hshards, hbuffer]
    rfl

/-- What a document says about each field is read on its own. -/
theorem config?_eq_some_iff {config : Config} :
    Decode.config? (.table document) = some config ↔
      (∀ (f : Field) d, f.section? document = some d → IsRecord d) ∧
        ∀ f : Field, f.read? (f.inFile? document) = some (f.get config) := by
  have hsections : Decode.config? (.table document) = do
      return ⟨← Decode.withDefault .default Decode.general? (Field.logLevel.section? document),
        ← Decode.withDefault .default Decode.engine? (Field.maxSteps.section? document)⟩ := rfl
  rw [hsections]
  constructor
  · intro h
    obtain ⟨general, hgeneral, h⟩ := Option.bind_eq_some_iff.mp h
    obtain ⟨engine, hengine, h⟩ := Option.bind_eq_some_iff.mp h
    cases h
    obtain ⟨hrecord, hlevel, hformat⟩ := withDefault_general_iff.mp hgeneral
    obtain ⟨hrecord', htrace, hsteps, hshards, hbuffer⟩ := withDefault_engine_iff.mp hengine
    constructor
    · intro f
      cases f <;> assumption
    · intro f
      cases f <;> assumption
  · rintro ⟨hrecord, hread⟩
    have hgeneral := withDefault_general_iff.mpr
      ⟨hrecord .logLevel, hread .logLevel, hread .logFormat⟩
    have hengine := withDefault_engine_iff.mpr
      ⟨hrecord .maxSteps, hread .traceEnabled, hread .maxSteps, hread .statsShards,
        hread .traceBuffer⟩
    rw [hgeneral, hengine]
    rfl

theorem parse_eq_ok_iff {text : String} {config : Config} :
    parse text = .ok config ↔ ∃ document, Toml.parse text = some document ∧ Readable document ∧
      ∀ f : Field, f.get config = f.fileValue document := by
  have hread : ∀ document, Decode.config? (.table document) = some config ↔
      Readable document ∧ ∀ f : Field, f.get config = f.fileValue document := by
    intro document
    simp only [config?_eq_some_iff, Field.read?, withDefault_eq_some_iff]
    constructor
    · rintro ⟨hrecord, hvalue⟩
      exact ⟨⟨hrecord, fun f => (hvalue f).1⟩, fun f => (hvalue f).2.symm⟩
    · rintro ⟨⟨hrecord, htyped⟩, hvalue⟩
      exact ⟨hrecord, fun f => ⟨htyped f, (hvalue f).symm⟩⟩
  unfold parse
  cases hparse : Toml.parse text with
  | none => simp
  | some document =>
    simp only [Option.bind_some, Option.some.injEq, exists_eq_left', ← hread]
    cases Decode.config? (.table document) <;> simp

theorem parse_error {text : String} {e : ConfigError} (h : parse text = .error e) :
    ∃ reason, e = .parseFailed reason := by
  unfold parse at h
  split at h
  · exact ⟨_, (Except.error.inj h).symm⟩
  · cases h

end reading

/-! ### The environment -/

theorem fst_override {α : Type} (env : Environment) (kind : String) (read : String → Option α)
    (name : String) (old : α) :
    (env.override kind read name old).1 = ((env.get? name).bind read).getD old := by
  unfold Environment.override
  cases env.get? name with
  | none => rfl
  | some text => cases hread : read text <;> simp [hread]

theorem variableName_eq (f : Field) : f.variableName = match f with
    | .logLevel => logLevelVariable
    | .logFormat => logFormatVariable
    | .traceEnabled => traceEnabledVariable
    | .maxSteps => maxStepsVariable
    | .statsShards => statsShardsVariable
    | .traceBuffer => traceBufferVariable := by
  cases f <;> decide +kernel

/-- Each field is overridden by its own variable, whatever the others are. -/
theorem get_override (env : Environment) (config : Config) (f : Field) :
    f.get (config.override env).1 =
      ((env.get? f.variableName).bind f.ofText?).getD (f.get config) := by
  rw [variableName_eq]
  unfold override
  cases f <;> exact fst_override env _ _ _ _

/-- The environment wins over what the file says. -/
theorem get_override_of_file {document : List (String × Datum)} {file : Config}
    (hfile : ∀ f : Field, f.get file = f.fileValue document) (env : Environment) (f : Field) :
    f.get (file.override env).1 = f.effective document env := by
  rw [get_override, hfile, Field.effective]

/-! ### Validity -/

/-- A complaint names a field whose value is not allowed. -/
theorem validate_cases (config : Config) :
    config.validate = .ok () ∧ Valid (fun f => f.get config) ∨
      ∃ (f : Field) (reason : String), config.validate = .error (.invalidValue f.path reason) ∧
        ¬ f.Allowed (f.get config) := by
  unfold validate
  split
  · next h =>
    have hlevel : config.general.logLevel ∉ logLevels := by simpa using h
    exact Or.inr ⟨.logLevel, _, rfl, hlevel⟩
  · next h =>
    have hlevel : config.general.logLevel ∈ logLevels := by simpa using h
    split
    · next h =>
      have hformat : config.general.logFormat ∉ logFormats := by simpa using h
      exact Or.inr ⟨.logFormat, _, rfl, hformat⟩
    · next h =>
      have hformat : config.general.logFormat ∈ logFormats := by simpa using h
      split
      · next hsteps => exact Or.inr ⟨.maxSteps, _, rfl, by simp [Field.Allowed, Field.get, hsteps]⟩
      · next hsteps =>
        split
        · next hshards => exact Or.inr ⟨.statsShards, _, rfl, Nat.not_le.mpr hshards⟩
        · next hshards =>
          split
          · next hbuffer =>
            exact Or.inr ⟨.traceBuffer, _, rfl, by simp [Field.Allowed, Field.get, hbuffer]⟩
          · next hbuffer =>
            refine Or.inl ⟨rfl, ?_⟩
            intro f
            cases f with
            | logLevel => exact hlevel
            | logFormat => exact hformat
            | traceEnabled => trivial
            | maxSteps => exact Nat.pos_of_ne_zero hsteps
            | statsShards => exact Nat.not_lt.mp hshards
            | traceBuffer => exact Nat.pos_of_ne_zero hbuffer

/-! ### Loading -/

/-- What loading is documented to give: the overlay of the environment and a file with this text,
if all its values are allowed. -/
def IsOverlay (text : String) (env : Environment) (config : Config) : Prop :=
  ∃ document, Toml.parse text = some document ∧ Readable document ∧
    Valid (·.effective document env) ∧ ∀ f : Field, f.get config = f.effective document env

/-- All values of a file with this text are allowed before anything is laid over them. -/
def FileValid (text : String) : Prop :=
  ∀ document, Toml.parse text = some document → Valid (·.fileValue document)

/-- The ways in which loading ends. -/
inductive Loads (text : String) (env : Environment) : Except ConfigError Config → Prop where
  | unreadable {reason : String}
      (unreadable : ∀ document, Toml.parse text = some document → ¬ Readable document) :
      Loads text env (.error (.parseFailed reason))
  /-- A value of the file is not allowed, whatever the environment says. -/
  | fileRefused {document : List (String × Datum)} {f : Field} {reason : String}
      (parsed : Toml.parse text = some document) (readable : Readable document)
      (refused : ¬ f.Allowed (f.fileValue document)) :
      Loads text env (.error (.invalidValue f.path reason))
  | overlayRefused {document : List (String × Datum)} {f : Field} {reason : String}
      (parsed : Toml.parse text = some document) (readable : Readable document)
      (allowed : Valid (·.fileValue document)) (refused : ¬ f.Allowed (f.effective document env)) :
      Loads text env (.error (.invalidValue f.path reason))
  | loaded {document : List (String × Datum)} {config : Config}
      (parsed : Toml.parse text = some document) (readable : Readable document)
      (allowed : Valid (·.fileValue document)) (valid : Valid (·.effective document env))
      (values : ∀ f : Field, f.get config = f.effective document env) :
      Loads text env (.ok config)

theorem loads (text : String) (env : Environment) : Loads text env (load text env) := by
  unfold load
  cases hparse : parse text with
  | error e =>
    obtain ⟨reason, rfl⟩ := parse_error hparse
    refine .unreadable ?_
    intro document hdocument hreadable
    have hok := parse_eq_ok_iff.mpr ⟨document, hdocument, hreadable, get_ofValues _⟩
    cases hparse.symm.trans hok
  | ok file =>
    obtain ⟨document, hdocument, hreadable, hfile⟩ := parse_eq_ok_iff.mp hparse
    have heffective := get_override_of_file hfile env
    show Loads text env (do
      file.validate
      (file.override env).1.validate
      return (file.override env).1)
    rcases validate_cases file with ⟨hvalidate, hvalid⟩ | ⟨f, reason, hvalidate, hrefused⟩
    · simp only [hfile] at hvalid
      rw [hvalidate]
      rcases validate_cases (file.override env).1 with
        ⟨hvalidate, hoverlay⟩ | ⟨f, reason, hvalidate, hrefused⟩
      · simp only [heffective] at hoverlay
        rw [hvalidate]
        exact .loaded hdocument hreadable hvalid hoverlay heffective
      · rw [heffective] at hrefused
        rw [hvalidate]
        exact .overlayRefused hdocument hreadable hvalid hrefused
    · rw [hfile] at hrefused
      rw [hvalidate]
      exact .fileRefused hdocument hreadable hrefused

theorem load_eq_ok_iff {text : String} {env : Environment} {config : Config} :
    load text env = .ok config ↔ IsOverlay text env config ∧ FileValid text := by
  have hends := loads text env
  constructor
  · intro hload
    rw [hload] at hends
    cases hends with
    | loaded hparse hreadable hallowed hvalid hvalues =>
      refine ⟨⟨_, hparse, hreadable, hvalid, hvalues⟩, ?_⟩
      intro document hdocument
      cases hparse.symm.trans hdocument
      exact hallowed
  · rintro ⟨⟨document, hdocument, hreadable, hvalid, hvalues⟩, hfile⟩
    cases hload : load text env with
    | error e =>
      rw [hload] at hends
      cases hends with
      | unreadable hunreadable => exact absurd hreadable (hunreadable document hdocument)
      | fileRefused hparse _ hrefused => exact absurd (hfile _ hparse _) hrefused
      | overlayRefused hparse _ _ hrefused =>
        cases hparse.symm.trans hdocument
        exact absurd (hvalid _) hrefused
    | ok loaded =>
      rw [hload] at hends
      cases hends with
      | loaded hparse _ _ _ hvalues' =>
        cases hparse.symm.trans hdocument
        have hsame : loaded = config :=
          eq_of_get_eq fun f => (hvalues' f).trans (hvalues f).symm
        rw [hsame]

/-- Loading gives the overlay of environment, file and defaults, validated, as long as the file is
valid on its own; otherwise it gives nothing, although the overlay may be valid. A complaint about a
value names a field whose value in the file is not allowed or, if the file is valid, one whose
overlaid value is not. So loading is what its documentation says exactly for the texts and the
environments in which no file that is not valid is mended. -/
theorem load_overlay (text : String) (env : Environment) :
    (∀ config, load text env = .ok config ↔ IsOverlay text env config ∧ FileValid text) ∧
    (∀ name reason, load text env = .error (.invalidValue name reason) →
      ∃ document, Toml.parse text = some document ∧ Readable document ∧ ∃ f : Field,
        name = f.path ∧ (¬ f.Allowed (f.fileValue document) ∨
          FileValid text ∧ ¬ f.Allowed (f.effective document env))) ∧
    ((∀ config, load text env = .ok config ↔ IsOverlay text env config) ↔
      ((∃ config, IsOverlay text env config) → FileValid text)) := by
  refine ⟨fun config => load_eq_ok_iff, ?_, ?_⟩
  · intro name reason hload
    have hends := loads text env
    rw [hload] at hends
    cases hends with
    | fileRefused hparse hreadable hrefused =>
      exact ⟨_, hparse, hreadable, _, rfl, Or.inl hrefused⟩
    | overlayRefused hparse hreadable hallowed hrefused =>
      refine ⟨_, hparse, hreadable, _, rfl, Or.inr ⟨?_, hrefused⟩⟩
      intro document hdocument
      cases hparse.symm.trans hdocument
      exact hallowed
  · constructor
    · rintro hagrees ⟨config, hoverlay⟩
      exact (load_eq_ok_iff.mp ((hagrees config).mpr hoverlay)).2
    · intro hvalid config
      rw [load_eq_ok_iff]
      exact ⟨And.left, fun hoverlay => ⟨hoverlay, hvalid ⟨config, hoverlay⟩⟩⟩

/-- A variable puts an allowed value in place of the one that is written, and everything else has its
default; yet the file is refused. -/
theorem load_refuses_mended :
    let text := "[engine]\nmax_steps = 0\n"
    let env : Environment := [("IRONWALL_ENGINE_MAX_STEPS", "100")]
    let config : Config := ⟨⟨"info", "json"⟩, ⟨false, 100, 0, 1024⟩⟩
    IsOverlay text env config ∧
      load text env = .error (.invalidValue "engine.max_steps" "must be greater than 0") := by
  intro text env config
  let file : Config := ⟨⟨"info", "json"⟩, ⟨false, 0, 0, 1024⟩⟩
  have hparse : parse text = .ok file := by
    have hevaluated : (parse text).toOption = some file := by decide +kernel
    cases hresult : parse text <;> simp_all [Except.toOption]
  have hload : load text env =
      .error (.invalidValue "engine.max_steps" "must be greater than 0") := by
    rw [load, hparse]
    rfl
  obtain ⟨document, hdocument, hreadable, hfile⟩ := parse_eq_ok_iff.mp hparse
  have hmended : (file.override env).1 = config := by decide +kernel
  have hvalues : ∀ f : Field, f.get config = f.effective document env :=
    fun f => hmended ▸ get_override_of_file hfile env f
  have hvalid : Valid (fun f => f.get config) := by
    rcases validate_cases config with ⟨-, hvalid⟩ | ⟨f, reason, hrefused, -⟩
    · exact hvalid
    · cases hrefused
  refine ⟨⟨document, hdocument, hreadable, ?_, hvalues⟩, hload⟩
  intro f
  show f.Allowed (f.effective document env)
  rw [← hvalues]
  exact hvalid f

end Config

end RuleChain
