import RuleChain.Report.Basic
import RuleChain.Table.Basic

/-! # Report on a ruleset

  The chains that a ruleset file makes, or why it was refused.
-/

namespace RuleChain

/-- A chain in a report. -/
structure ChainEntry where
  id : ChainId
  name : String
  /-- The policy, if it is a base chain. -/
  policy : Option Policy
  /-- The number of rules. -/
  rules : Nat
deriving DecidableEq, Repr

namespace ChainEntry

/-- A chain with the rules that the current generation shows. -/
def ofChain (g : Generation) (chain : Chain) : ChainEntry :=
  ⟨chain.id, chain.name, chain.base.map (·.policy), (chain.visibleRules g).length⟩

/-- The line that lists a chain. -/
def line (entry : ChainEntry) : String :=
  Text.row
    [(6, toString entry.id.index), (24, entry.name),
      (8, if entry.policy.isSome then "base" else "regular"),
      (8, (entry.policy.map Policy.word).getD "-")]
    (toString entry.rules)

def json (entry : ChainEntry) : Json :=
  .object <|
    [("id", .number entry.id.index), ("name", .string entry.name),
      ("base", .bool entry.policy.isSome)]
    ++ Json.member? "policy" entry.policy (fun policy => .string policy.word)
    ++ [("rules", .number entry.rules)]

end ChainEntry

/-- What is known of a ruleset file. -/
structure RulesetReport where
  /-- The file. -/
  source : String
  /-- The name of the table and its chains, or the complaint. -/
  result : Except String (String × List ChainEntry)

namespace RulesetReport

/-- The report on a ruleset that makes a table. -/
def ofTable (source : String) (t : Table) : RulesetReport :=
  ⟨source, .ok (t.name, t.chains.toList.map (ChainEntry.ofChain t.generation))⟩

/-- The number of rules in all chains. -/
def totalRules (entries : List ChainEntry) : Nat := entries.foldl (fun n entry => n + entry.rules) 0

/-- The line above the list of chains. -/
def header : String :=
  Text.row [(6, "ID"), (24, "Chain"), (8, "Type"), (8, "Policy")] "Rules"

def report (r : RulesetReport) : Report :=
  let title := "Ruleset Check: " ++ r.source
  let source := ("source", Json.string r.source)
  match r.result with
  | .error complaint =>
    { text := Text.unlines [title, "  Result: INVALID", "  Error: " ++ complaint]
      json := .object
        [source, ("valid", .bool false), ("total_rules", .number 0), ("chains", .array []),
          ("errors", .array [.string complaint])] }
  | .ok (table, entries) =>
    { text := Text.unlines <|
        [title, "  Result: VALID",
          s!"  Table:  {table} ({entries.length} chains, {totalRules entries} rules)", "", header,
          String.ofList (List.replicate 56 '-')]
        ++ entries.map ChainEntry.line
      json := .object
        [source, ("valid", .bool true), ("table", .string table),
          ("total_rules", .number (totalRules entries)),
          ("chains", .array (entries.map ChainEntry.json)), ("errors", .array [])] }

end RulesetReport

end RuleChain
