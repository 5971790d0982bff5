import RuleChain.Text.Column
import RuleChain.Text.Json
import RuleChain.Trace

/-! # Reports

  What a command has to tell, as text for a reader and as JSON for a program. Every command has
  a structure with its findings, and turns it into a `Report`.
-/

namespace RuleChain

/-- The two forms of a report. -/
inductive ReportFormat where
  | text
  | json
deriving DecidableEq, Repr, Inhabited

def ReportFormat.word : ReportFormat → String
  | .text => "text"
  | .json => "json"

/-- A report in both forms. -/
structure Report where
  text : String
  json : Json

/-- What is printed of a report. -/
def Report.render (report : Report) : ReportFormat → String
  | .text => report.text
  | .json => report.json.text ++ "\n"

/-! ### Values of the engine as JSON -/

def Disposition.json : Disposition → Json
  | .queue number => .object [("queue", .number number.toNat)]
  | d => .string d.word

def Verdict.json (verdict : Verdict) : Json :=
  .object (("code", .string verdict.word) :: Json.member? "arg" verdict.argument? .number)

def TraceEvent.json (event : TraceEvent) : Json :=
  .object
    [("table", .string event.table), ("chain", .string event.chain),
      ("chain_id", .number event.chainId.index), ("rule", Json.orNull event.rule .number),
      ("rulenum", Json.orNull event.number .number), ("kind", .string event.kind.word),
      ("verdict", event.verdict.json)]

end RuleChain
