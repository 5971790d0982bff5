import RuleChain.Error
import RuleChain.Table.Basic

/-! # Transactions

  Every change of a table is made in a transaction. The changes only touch the marks of the
  generation that is not current, and each is logged:

  - a new chain is in the map at once, but its rules carry the mark of the next generation only;
  - a new rule is linked with the mark of the next generation;
  - a deleted rule loses the mark of the next generation and stays linked;
  - a deleted chain stays in the map, and is only remembered as deleted.

  An operation that is refused changes nothing. `Transaction.rollback` undoes the log backwards.
-/

namespace RuleChain

/-- One logged change. -/
inductive Change where
  | addChain (id : ChainId)
  | deleteChain (id : ChainId)
  | addRule (chain : ChainId) (handle : Nat)
  | deleteRule (chain : ChainId) (handle : Nat)
deriving DecidableEq, Repr

/-- An open transaction and the table as it stands. -/
structure Transaction where
  table : Table
  /-- The generation being prepared. -/
  next : Generation
  /-- The changes made, the latest first. -/
  log : List Change
  /-- The chains deleted. -/
  deleted : List ChainId
deriving DecidableEq

/-- Opens a transaction. -/
def Table.begin (t : Table) : Transaction where
  table := t
  next := t.generation.other
  log := []
  deleted := []

namespace Transaction

/-- A chain of the table that the transaction has not deleted. -/
def liveChain? (tx : Transaction) (id : ChainId) : Option Chain :=
  if id ∈ tx.deleted then none else tx.table.chains.get? id

/-- The live chain with an id, or the complaint that there is none. -/
def liveChain (tx : Transaction) (id : ChainId) : Except EngineError Chain :=
  match tx.liveChain? id with
  | some chain => .ok chain
  | none => .error (.unknownChainId id)

/-- The live chains in the order of their ids. -/
def liveChains (tx : Transaction) : List Chain :=
  tx.table.chains.toList.filter (·.id ∉ tx.deleted)

/-! ### Operations -/

/-- Adds a chain, with a policy if it is to be a base chain. A name is free again only after the
commit that deleted its chain. -/
def addChain (tx : Transaction) (name : String) (policy : Option Policy) :
    Except EngineError (ChainId × Transaction) :=
  let t := tx.table
  if (t.chains.lookup? name).isSome then .error (.duplicateChain name)
  else
    let id : ChainId := ⟨t.nextChain⟩
    let base := policy.map fun policy =>
      { policy, ns := t.ns, stats := .ofShardCount t.statsShards : BaseChain }
    let chain : Chain := { id, name, rules := [], base }
    .ok (id,
      { tx with
        table := { t with chains := t.chains.insert chain, nextChain := t.nextChain + 1 }
        log := .addChain id :: tx.log })

/-- Deletes a chain that has no rule left in the next generation. -/
def deleteChain (tx : Transaction) (id : ChainId) : Except EngineError Transaction := do
  let chain ← tx.liveChain id
  if chain.rules.any (·.isActive tx.next) then
    throw (.chainNotEmpty chain.name)
  return { tx with deleted := id :: tx.deleted, log := .deleteChain id :: tx.log }

/-- Where a new rule goes. -/
inductive Place where
  | front
  | back
deriving DecidableEq, Repr

/-- Links a rule at a place of a rule list. -/
def Place.link (place : Place) (rule : Rule) (rules : List Rule) : List Rule :=
  match place with
  | .front => rule :: rules
  | .back => rules ++ [rule]

/-- Adds a rule to a live chain. -/
def placeRule (tx : Transaction) (id : ChainId) (exprs : List Expr) (place : Place) :
    Except EngineError (Nat × Transaction) := do
  let _ ← tx.liveChain id
  let handle := tx.table.nextHandle
  let rule : Rule := { handle, exprs, mask := .only tx.next }
  let table := tx.table.modifyChain id (·.mapRules (place.link rule))
  return (handle,
    { tx with
      table := { table with nextHandle := handle + 1 }
      log := .addRule id handle :: tx.log })

/-- Takes the next generation's mark from the rules with the given handles, and logs it. -/
def hideRules (tx : Transaction) (id : ChainId) (handles : List Nat) : Transaction :=
  handles.foldl
    (fun tx handle =>
      { tx with
        table := tx.table.modifyChain id (·.modifyRule handle (·.deactivate tx.next))
        log := .deleteRule id handle :: tx.log })
    tx

/-- Deletes the rule with a handle. -/
def deleteRule (tx : Transaction) (id : ChainId) (handle : Nat) :
    Except EngineError Transaction := do
  let chain ← tx.liveChain id
  if chain.rules.any fun rule => rule.handle = handle && rule.isActive tx.next then
    return tx.hideRules id [handle]
  else throw (.ruleNotFound chain.name handle)

/-- Deletes all rules of a chain and tells how many there were. -/
def flushChain (tx : Transaction) (id : ChainId) : Except EngineError (Nat × Transaction) := do
  let chain ← tx.liveChain id
  let handles := (chain.visibleRules tx.next).map (·.handle)
  return (handles.length, tx.hideRules id handles)

/-- The live chain with a name. -/
def chainId? (tx : Transaction) (name : String) : Option ChainId :=
  ((tx.table.chains.lookup? name).map (·.id)).filter (· ∉ tx.deleted)

/-! ### Operations as data -/

/-- An operation on an open transaction. -/
inductive Operation where
  | addChain (name : String) (policy : Option Policy)
  | deleteChain (chain : ChainId)
  | placeRule (chain : ChainId) (exprs : List Expr) (place : Place)
  | deleteRule (chain : ChainId) (handle : Nat)
  | flushChain (chain : ChainId)
  | chainId (name : String)

/-- What an operation that was not refused answers. -/
inductive Answer where
  | done
  | chain (id : ChainId)
  | handle (handle : Nat)
  | count (count : Nat)
  | found (id : Option ChainId)
deriving DecidableEq, Repr

/-- Runs an operation. -/
def apply (tx : Transaction) : Operation → Except EngineError (Answer × Transaction)
  | .addChain name policy => (tx.addChain name policy).map fun (id, tx) => (.chain id, tx)
  | .deleteChain id => (tx.deleteChain id).map fun tx => (.done, tx)
  | .placeRule id exprs place =>
    (tx.placeRule id exprs place).map fun (handle, tx) => (.handle handle, tx)
  | .deleteRule id handle => (tx.deleteRule id handle).map fun tx => (.done, tx)
  | .flushChain id => (tx.flushChain id).map fun (count, tx) => (.count count, tx)
  | .chainId name => .ok (.found (tx.chainId? name), tx)

/-! ### Rollback -/

/-- Undoes one change. -/
def undo (next : Generation) (t : Table) : Change → Table
  | .addChain id => { t with chains := t.chains.erase id }
  | .deleteChain _ => t
  | .addRule id handle => t.modifyChain id (·.unlink handle)
  | .deleteRule id handle => t.modifyChain id (·.modifyRule handle (·.activate next))

/-- Undoes all changes, the latest first. -/
def rollback (tx : Transaction) : Table := tx.log.foldl (undo tx.next) tx.table

end Transaction

end RuleChain
