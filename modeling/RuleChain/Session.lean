import RuleChain.Evaluator
import RuleChain.Ruleset.Build
import RuleChain.Ruleset.Decode

/-! # Sessions

  A session is one table under the control of one operator: at most one open transaction, an
  evaluator with its trace sink, a list of read guards, and the telemetry so far.

  A call that would wait for something that only the same operator can do is refused: opening a
  second transaction, and committing while a read guard holds the current generation.
-/

namespace RuleChain

/-- A table, perhaps with an open transaction. -/
inductive Stage where
  | idle (table : Table)
  | editing (tx : Transaction)
deriving DecidableEq

namespace Stage

def table : Stage → Table
  | .idle t => t
  | .editing tx => tx.table

/-- Changes the table and keeps an open transaction open. -/
def withTable : Stage → Table → Stage
  | .idle _, t => .idle t
  | .editing tx, t => .editing { tx with table := t }

end Stage

/-- A session. -/
structure Session where
  stage : Stage
  evaluator : Evaluator
  sink : TraceSink
  /-- The generations pinned by read guards, the first guard first. -/
  guards : List Generation
  telemetry : Telemetry

/-- Why a call in a session was refused. -/
inductive SessionError where
  | transactionOpen
  | noTransaction
  /-- The call would wait for a read guard of the same session. -/
  | wouldBlock
  | engine (error : EngineError)
deriving DecidableEq, Repr

namespace Session

def start (table : Table) (evaluator : Evaluator) (sink : TraceSink) : Session :=
  ⟨.idle table, evaluator, sink, [], .empty⟩

def table (s : Session) : Table := s.stage.table

def tell (s : Session) (notices : List Notice) : Session :=
  { s with telemetry := s.telemetry.add notices }

/-- Whether a read guard holds the current generation. -/
def isHeld (s : Session) : Bool := s.guards.any (· = s.table.generation)

/-! ### Transactions -/

/-- The open transaction. -/
def transaction (s : Session) : Except SessionError Transaction :=
  match s.stage with
  | .idle _ => .error .noTransaction
  | .editing tx => .ok tx

def begin (s : Session) : Except SessionError Session :=
  match s.stage with
  | .editing _ => .error .transactionOpen
  | .idle t => .ok { s with stage := .editing t.begin }

/-- What is told about an operation. -/
def operationNotices (table : String) : Transaction.Operation → Transaction.Answer → List Notice
  | .addChain name _, .chain id => [.chainAdded table name id]
  | _, _ => []

/-- Runs an operation of the open transaction. -/
def edit (s : Session) (operation : Transaction.Operation) :
    Except SessionError (Transaction.Answer × Session) := do
  let tx ← s.transaction
  match tx.apply operation with
  | .error e => throw (.engine e)
  | .ok (answer, tx) =>
    return (answer,
      { s with stage := .editing tx }.tell (operationNotices tx.table.name operation answer))

/-- Undoes the open transaction. -/
def abort (s : Session) : Except SessionError Session := do
  let tx ← s.transaction
  return { s with stage := .idle tx.rollback }.tell tx.abortNotices

/-- The open transaction, if a commit would not wait. -/
def committable (s : Session) : Except SessionError Transaction := do
  let tx ← s.transaction
  if s.isHeld then throw .wouldBlock
  return tx

/-- Commits the open transaction. -/
def commit (s : Session) : Except SessionError (Except EngineError Nat × Session) := do
  let tx ← s.committable
  let (answer, t, notices) := tx.commit
  return (answer, { s with stage := .idle t }.tell notices)

/-- The table, if a ruleset can be put into it without waiting. -/
def settled (s : Session) : Except SessionError Table :=
  match s.stage with
  | .editing _ => .error .transactionOpen
  | .idle t => if s.isHeld then .error .wouldBlock else .ok t

/-- Puts a ruleset into the table. -/
def apply (s : Session) (ruleset : Ruleset) :
    Except SessionError (Except EngineError Nat × Session) := do
  let t ← s.settled
  let (answer, t, notices) := ruleset.apply t
  return (answer, { s with stage := .idle t }.tell notices)

/-- Reads a ruleset and puts it into the table; `source` names it in complaints. -/
def applyText (s : Session) (text source : String) :
    Except SessionError (Except EngineError Nat × Session) := do
  let _ ← s.settled
  match Ruleset.parse text source with
  | .ok ruleset => s.apply ruleset
  | .error e => return (.error e, s)

/-! ### Evaluation -/

/-- Sends a packet through a base chain. -/
def tryEvaluate (s : Session) (packet : Packet) (base : ChainId) :
    Except EvalError Evaluation × Session :=
  let done := s.evaluator.tryEvaluate s.table packet base
  let (sink, notices) := s.sink.emitAll done.events
  (done.result, { s with stage := s.stage.withTable done.table, sink }.tell notices)

/-- Sends a packet through a base chain; a walk that is given up drops the packet. -/
def evaluate (s : Session) (packet : Packet) (base : ChainId) : Disposition × Session :=
  let (result, s) := s.tryEvaluate packet base
  (Evaluator.disposition result, s.tell (Evaluator.notices s.table base result))

/-- Sends packets through base chains, one after the other. -/
def tryEvaluateAll (s : Session) :
    List (Packet × ChainId) → List (Except EvalError Evaluation) × Session
  | [] => ([], s)
  | (packet, base) :: rest =>
    let (result, s) := s.tryEvaluate packet base
    let (results, s) := s.tryEvaluateAll rest
    (result :: results, s)

/-- The events since the last call. -/
def drain (s : Session) : List TraceEvent × Session :=
  let (events, sink) := s.sink.drain
  (events, { s with sink })

/-- Publishes the counters of all base chains. -/
def publish (s : Session) : Session := s.tell s.table.countNotices

/-! ### Read guards -/

/-- Takes a read guard of the current generation. -/
def enter (s : Session) : Generation × Session :=
  let g := s.table.generation
  (g, { s with stage := s.stage.withTable s.table.enter, guards := s.guards ++ [g] })

/-- Releases a read guard by its place in the list. -/
def leave (s : Session) (index : Nat) : Session :=
  match s.guards[index]? with
  | none => s
  | some g =>
    { s with
      stage := s.stage.withTable (s.table.leave g)
      guards := s.guards.eraseIdx index }

/-! ### A commit that has to wait -/

/-- What readers see while a commit waits for a reader of the old generation. -/
structure Waiting where
  /-- The generation that the reader holds. -/
  held : Generation
  /-- The readers of the old and the new generation. -/
  readers : Nat × Nat
  /-- The handles visible in the old and the new generation, for each chain. -/
  visible : List (String × List Nat × List Nat)
  results : List (Except EvalError Evaluation)
  /-- The table after the evaluations. -/
  table : Table

/-- The handles visible in two generations. -/
def visibleHandles (t : Table) (old new : Generation) : List (String × List Nat × List Nat) :=
  t.chains.toList.map fun chain =>
    (chain.name, (chain.visibleRules old).map (·.handle), (chain.visibleRules new).map (·.handle))

/-- Commits the open transaction while another reader holds the current generation. Packets that
are sent in the meantime meet the new generation. Once the reader leaves the commit ends. -/
def commitHeld (s : Session) (packets : List (Packet × ChainId)) :
    Except SessionError (Except EngineError Nat × Option Waiting × Session) := do
  let tx ← s.committable
  match tx.publish? with
  | .error e =>
    return (.error e, none, { s with stage := .idle tx.rollback }.tell (tx.rejectNotices e))
  | .ok _ =>
    let held := tx.table.generation
    let p := { tx with table := tx.table.enter }.publish
    let readers := (p.table.readers.get held, p.table.readers.get held.other)
    let visible := visibleHandles p.table held held.other
    let (results, s) := { s with stage := .idle p.table }.tryEvaluateAll packets
    let waiting : Waiting := ⟨held, readers, visible, results, s.table⟩
    let p := { p with table := s.table.leave held }
    return (.ok p.finish.sequence, some waiting, { s with stage := .idle p.finish }.tell p.notices)

end Session

end RuleChain
