import RuleChain.Report.Basic

/-! # Report on an evaluation

  What became of one packet. A walk that was given up has visited no rule as far as the report is
  concerned, and says why it was given up.
-/

namespace RuleChain

/-- What became of a packet. -/
structure EvaluationReport where
  /-- The ruleset file. -/
  ruleset : String
  /-- The base chain that the packet was sent through. -/
  chain : String
  packetLength : Nat
  disposition : Disposition
  visited : Nat
  /-- Why the walk was given up. -/
  aborted : Option String
  trace : List TraceEvent
deriving DecidableEq, Repr

namespace EvaluationReport

/-- The line that lists an event. -/
def eventLine (event : TraceEvent) : String :=
  let rule := (event.rule.map fun handle => "handle " ++ toString handle).getD ""
  "  " ++ Text.row [(40, event.text), (12, rule)] event.verdict.logText

def traceLines (trace : List TraceEvent) : List String :=
  if trace.isEmpty then [] else "" :: "Trace:" :: trace.map eventLine

def report (r : EvaluationReport) : Report where
  text := Text.unlines <|
    [s!"Evaluation: {r.chain} ({r.packetLength} bytes, ruleset {r.ruleset})",
      "  Disposition:     " ++ r.disposition.text.map Char.toUpper,
      s!"  Rules evaluated: {r.visited}"]
    ++ (r.aborted.map fun reason => "  Aborted:         " ++ reason).toList
    ++ traceLines r.trace
  json := .object <|
    [("ruleset", .string r.ruleset), ("chain", .string r.chain),
      ("packet_len", .number r.packetLength), ("disposition", r.disposition.json),
      ("rules_evaluated", .number r.visited)]
    ++ Json.member? "aborted" r.aborted .string
    ++ [("trace", .array (r.trace.map TraceEvent.json))]

end EvaluationReport

end RuleChain
