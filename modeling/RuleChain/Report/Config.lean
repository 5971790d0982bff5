import RuleChain.Config.Document
import RuleChain.Report.Basic

/-! # Reports on a configuration

  Whether a configuration is valid, and what it says. The second report shows the configuration
  only in its text form.
-/

namespace RuleChain

/-! ### Validity -/

/-- Whether the configuration from a file can be used. -/
structure ConfigCheckReport where
  /-- The file. -/
  source : String
  complaint : Option String
deriving DecidableEq, Repr

def ConfigCheckReport.report (r : ConfigCheckReport) : Report where
  text := Text.unlines <|
    ["Config Validation: " ++ r.source,
      "  Result: " ++ if r.complaint.isNone then "VALID" else "INVALID"]
    ++ (r.complaint.map ("  Error: " ++ ·)).toList
  json := .object
    [("source", .string r.source), ("valid", .bool r.complaint.isNone),
      ("errors", .array (r.complaint.map Json.string).toList)]

/-! ### Content -/

/-- The part of a configuration that is shown. -/
inductive ConfigPart where
  | whole
  | general
  | engine
deriving DecidableEq, Repr, Inhabited

namespace ConfigPart

/-- The name of the section, unless all of them are shown. -/
def section? : ConfigPart → Option String
  | .whole => none
  | .general => some "general"
  | .engine => some "engine"

/-- The part that a section name stands for. -/
def ofSection? (name : String) : Option ConfigPart :=
  [general, engine].find? fun part => part.section? = some name

/-- The part as it stands in a configuration file, if its numbers can be written there. -/
def write (part : ConfigPart) (config : Config) : Option String :=
  match part with
  | .whole => config.write
  | .general => some (Config.writeGeneral config.general)
  | .engine => Config.writeEngine config.engine

end ConfigPart

/-- What a configuration says. -/
structure ConfigReport where
  /-- The file. -/
  source : String
  part : ConfigPart
  config : Config
deriving DecidableEq, Repr

namespace ConfigReport

/-- What is shown of a configuration that cannot be written. -/
def unwritable : String := "(serialization error: out-of-range value for u64 type)"

def report (r : ConfigReport) : Report where
  text :=
    "Configuration " ++ ((r.part.section?.map fun name => "[" ++ name ++ "] ").getD "")
      ++ "(source: " ++ r.source ++ ")\n\n" ++ (r.part.write r.config).getD unwritable
  json := .object
    (("source", .string r.source) :: Json.member? "section" r.part.section? .string)

end ConfigReport

end RuleChain
