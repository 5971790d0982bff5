import RuleChain.Ruleset.Basic
import RuleChain.Settings
import RuleChain.Table.Commit

/-! # Rulesets in tables

  A ruleset is put into a table by one transaction: first all its chains are added, so that rules
  may name chains that come later, then all rules. Only chains of the same ruleset can be
  named. If anything is refused the table stays as it was.
-/

namespace RuleChain

namespace Ruleset

/-- A ruleset on its way into a table. -/
structure Filling where
  tx : Transaction
  /-- The chains added, in order. -/
  ids : List (String × ChainId)
deriving DecidableEq

/-- Adds chains without rules; what is refused leaves the filling before it. -/
def addChains (filling : Filling) : List ChainSpec → Except (EngineError × Filling) Filling
  | [] => .ok filling
  | spec :: rest =>
    match filling.tx.addChain spec.name spec.policy with
    | .error e => .error (e, filling)
    | .ok (id, tx) => addChains ⟨tx, filling.ids ++ [(spec.name, id)]⟩ rest

/-- The id of a chain that was added. -/
def Filling.idOf? (filling : Filling) (name : String) : Option ChainId :=
  (filling.ids.find? (·.1 == name)).map (·.2)

/-- Adds rules at the end of a chain. -/
def addRules (id : ChainId) (filling : Filling) :
    List RuleSpec → Except (EngineError × Filling) Filling
  | [] => .ok filling
  | spec :: rest =>
    let placed := do
      let exprs ← spec.exprs.mapM (ExprSpec.toExpr filling.idOf?)
      filling.tx.placeRule id exprs .back
    match placed with
    | .error e => .error (e, filling)
    | .ok (_, tx) => addRules id { filling with tx } rest

/-- Adds the rules of all chains. -/
def addAllRules (filling : Filling) :
    List (ChainSpec × ChainId) → Except (EngineError × Filling) Filling
  | [] => .ok filling
  | (spec, id) :: rest =>
    match addRules id filling spec.rules with
    | .error e => .error e
    | .ok filling => addAllRules filling rest

/-- Adds the ruleset in an open transaction. -/
def fill (ruleset : Ruleset) (tx : Transaction) : Except (EngineError × Filling) Filling :=
  match addChains ⟨tx, []⟩ ruleset.chains with
  | .error e => .error e
  | .ok filling => addAllRules filling (ruleset.chains.zip (filling.ids.map (·.2)))

/-- What is told about the chains added. -/
def Filling.notices (filling : Filling) : List Notice :=
  filling.ids.map fun (name, id) => .chainAdded filling.tx.table.name name id

/-- Adds the ruleset to a table: the number of the commit, or why it was refused, with the table
after either and what is told about it. -/
def apply (ruleset : Ruleset) (t : Table) : Except EngineError Nat × Table × List Notice :=
  match ruleset.fill t.begin with
  | .error (e, filling) =>
    (.error e, filling.tx.rollback, filling.notices ++ filling.tx.abortNotices)
  | .ok filling =>
    match filling.tx.commit with
    | (.error e, t, notices) => (.error e, t, filling.notices ++ notices)
    | (.ok sequence, t, notices) =>
      (.ok sequence, t,
        filling.notices ++ notices
          ++ [.rulesetApplied ruleset.name ruleset.chains.length ruleset.ruleCount])

/-- A new table with the ruleset in it. -/
def build (ruleset : Ruleset) (settings : EngineSettings) (parallelism : Nat) :
    Except EngineError Table :=
  match ruleset.apply
      (Table.create ruleset.name ruleset.ns (settings.effectiveShards parallelism)) with
  | (.ok _, t, _) => .ok t
  | (.error e, _, _) => .error e

end Ruleset

end RuleChain
