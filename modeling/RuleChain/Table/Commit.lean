import RuleChain.Table.Validation
import RuleChain.Telemetry.Notice

/-! # Commit

  A transaction ends by a commit or by an abort. A commit validates the transaction and then
  goes through these steps:

  1. *flip*: the prepared generation becomes current;
  2. *wait* until no reader is pinned to the old generation;
  3. *finalize*: change by change, the marks of the old generation are brought in line and
     deleted chains leave the map;
  4. *unlink* the rules that no generation shows.

  `Publication` is a commit between steps 1 and 3. A commit that is refused, like an abort, ends
  in `Transaction.rollback`.
-/

namespace RuleChain

/-! ### Finalization -/

/-- Brings the marks of the old generation in line with one change. -/
def Change.finalize (old : Generation) (t : Table) : Change → Table
  | .addChain _ => t
  | .deleteChain id => { t with chains := t.chains.erase id }
  | .addRule id handle => t.modifyChain id (·.modifyRule handle (·.activate old))
  | .deleteRule id handle => t.modifyChain id (·.modifyRule handle (·.deactivate old))

/-- The chain that a change may leave dead rules in. -/
def Change.touched? : Change → Option ChainId
  | .deleteRule id _ => some id
  | _ => none

/-- A commit whose new generation is current and whose old one is not yet finalized. -/
structure Publication where
  table : Table
  /-- The generation that was current. -/
  old : Generation
  /-- The changes still to be finalized, in the order in which they were made. -/
  log : List Change
deriving DecidableEq

namespace Publication

/-- Whether every reader has left the old generation. -/
def isQuiet (p : Publication) : Bool := p.table.readers.get p.old = 0

/-- Finalizes all changes and unlinks dead rules. -/
def finish (p : Publication) : Table :=
  let t := p.log.foldl (Change.finalize p.old) p.table
  (p.log.filterMap Change.touched?).foldl (fun t id => t.modifyChain id Chain.unlinkDead) t

/-- What is told when a commit is done. -/
def notices (p : Publication) : List Notice :=
  let t := p.finish
  [.committed t.name t.sequence p.log.length t.activeRules]

end Publication

/-! ### The ends of a transaction -/

namespace Transaction

/-- What is told when the transaction is undone. -/
def abortNotices (tx : Transaction) : List Notice :=
  if tx.log.isEmpty then [] else [.aborted tx.table.name tx.log.length]

/-- Makes the prepared generation current. -/
def publish (tx : Transaction) : Publication where
  table := tx.table.flip
  old := tx.table.generation
  log := tx.log.reverse

/-- Validates the transaction and makes the prepared generation current. -/
def publish? (tx : Transaction) : Except EngineError Publication :=
  tx.validate.map fun () => tx.publish

/-- What is told when the commit is refused. -/
def rejectNotices (tx : Transaction) (error : EngineError) : List Notice :=
  .commitRejected tx.table.name error :: tx.abortNotices

/-- Commits the transaction: the number of the commit, or why it was refused, with the table after
either and what is told about it. -/
def commit (tx : Transaction) : Except EngineError Nat × Table × List Notice :=
  match tx.publish? with
  | .error error => (.error error, tx.rollback, tx.rejectNotices error)
  | .ok p => (.ok p.finish.sequence, p.finish, p.notices)

end Transaction

end RuleChain
