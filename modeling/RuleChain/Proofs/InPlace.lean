import RuleChain.Proofs.OpenTransaction

/-! # Operations in place

  The operations of a transaction written as procedures on one state: checks, counters, the map of
  chains and the log, in the order in which they come. A refusal leaves the state as far as it has
  been written, so that it can be asked whether anything was.

  `InPlace.run_perform` says that nothing was: every procedure does what the operation does, and one
  that is refused has not written yet.
-/

namespace RuleChain

namespace Transaction

/-- A procedure that works on an open transaction and may be refused. -/
abbrev InPlace := EStateM EngineError Transaction

namespace InPlace

/-! ### Procedures -/

def updateTable (f : Table → Table) : InPlace Unit :=
  modify fun tx => { tx with table := f tx.table }

/-- Logs a change. -/
def log (change : Change) : InPlace Unit :=
  modify fun tx => { tx with log := change :: tx.log }

/-- The live chain with an id. -/
def live (id : ChainId) : InPlace Chain := do
  match (← get).liveChain? id with
  | some chain => return chain
  | none => throw (.unknownChainId id)

def addChain (name : String) (policy : Option Policy) : InPlace ChainId := do
  let t := (← get).table
  if (t.chains.lookup? name).isSome then
    throw (.duplicateChain name)
  let id : ChainId := ⟨t.nextChain⟩
  updateTable fun t => { t with nextChain := t.nextChain + 1 }
  let base := policy.map fun policy =>
    { policy, ns := t.ns, stats := .ofShardCount t.statsShards : BaseChain }
  updateTable fun t => { t with chains := t.chains.insert { id, name, rules := [], base } }
  log (.addChain id)
  return id

def deleteChain (id : ChainId) : InPlace Unit := do
  let chain ← live id
  let tx ← get
  if chain.rules.any (·.isActive tx.next) then
    throw (.chainNotEmpty chain.name)
  modify fun tx => { tx with deleted := id :: tx.deleted }
  log (.deleteChain id)

def placeRule (id : ChainId) (exprs : List Expr) (place : Place) : InPlace Nat := do
  let _ ← live id
  let tx ← get
  let handle := tx.table.nextHandle
  updateTable fun t => { t with nextHandle := handle + 1 }
  let rule : Rule := { handle, exprs, mask := .only tx.next }
  updateTable (·.modifyChain id (·.mapRules (place.link rule)))
  log (.addRule id handle)
  return handle

/-- Takes the next generation's mark from a rule. -/
def hideRule (id : ChainId) (handle : Nat) : InPlace Unit := do
  let tx ← get
  updateTable (·.modifyChain id (·.modifyRule handle (·.deactivate tx.next)))
  log (.deleteRule id handle)

def deleteRule (id : ChainId) (handle : Nat) : InPlace Unit := do
  let chain ← live id
  let tx ← get
  if chain.rules.any fun rule => rule.handle = handle && rule.isActive tx.next then
    hideRule id handle
  else throw (.ruleNotFound chain.name handle)

def flushChain (id : ChainId) : InPlace Nat := do
  let chain ← live id
  let tx ← get
  let handles := (chain.visibleRules tx.next).map (·.handle)
  handles.forM (hideRule id)
  return handles.length

def chainId (name : String) : InPlace (Option ChainId) := do
  return (← get).chainId? name

/-- The procedure of an operation. -/
def perform : Operation → InPlace Answer
  | .addChain name policy => do return .chain (← addChain name policy)
  | .deleteChain id => do deleteChain id; return .done
  | .placeRule id exprs place => do return .handle (← placeRule id exprs place)
  | .deleteRule id handle => do deleteRule id handle; return .done
  | .flushChain id => do return .count (← flushChain id)
  | .chainId name => do return .found (← chainId name)

/-- Performs operations one after the other, whether or not they are refused. -/
def performAll (tx : Transaction) :
    List Operation → List (Except EngineError Answer) × Transaction
  | [] => ([], tx)
  | op :: rest =>
    match (perform op).run tx with
    | .error error after =>
      let (answers, last) := performAll after rest
      (.error error :: answers, last)
    | .ok answer after =>
      let (answers, last) := performAll after rest
      (.ok answer :: answers, last)

/-! ### What the procedures do -/

variable {tx : Transaction} {id : ChainId}

/-- What is left of an operation: its answer and the new state, or its error and the old one. -/
def settled {α : Type} (tx : Transaction) :
    Except EngineError (α × Transaction) → EStateM.Result EngineError Transaction α
  | .ok (a, after) => .ok a after
  | .error error => .error error tx

/-- Both forms of an operation look for a live chain first. -/
theorem run_live_bind {α : Type} (tx : Transaction) (id : ChainId) (f : Chain → InPlace α) :
    (live id >>= f).run tx = match tx.liveChain? id with
      | some chain => (f chain).run tx
      | none => .error (.unknownChainId id) tx := by
  unfold live
  simp only [EStateM.run_bind, EStateM.run_get]
  cases tx.liveChain? id <;> rfl

theorem liveChain_bind {α : Type} (tx : Transaction) (id : ChainId)
    (f : Chain → Except EngineError α) :
    (tx.liveChain id >>= f) = match tx.liveChain? id with
      | some chain => f chain
      | none => .error (.unknownChainId id) := by
  unfold liveChain
  cases tx.liveChain? id <;> rfl

theorem run_addChain (tx : Transaction) (name : String) (policy : Option Policy) :
    (addChain name policy).run tx = settled tx (tx.addChain name policy) := by
  unfold addChain Transaction.addChain
  rw [EStateM.run_bind, EStateM.run_get]
  by_cases htaken : (tx.table.chains.lookup? name).isSome
  · simp only [htaken, ↓reduceIte]
    rfl
  · simp only [htaken]
    rfl

theorem run_deleteChain (tx : Transaction) (id : ChainId) :
    (deleteChain id).run tx = settled tx ((tx.deleteChain id).map fun tx => ((), tx)) := by
  unfold deleteChain Transaction.deleteChain
  rw [run_live_bind, liveChain_bind]
  cases hlive : tx.liveChain? id with
  | none => rfl
  | some chain =>
    by_cases hany : chain.rules.any (·.isActive tx.next)
    · simp only [EStateM.run_bind, EStateM.run_get, hany, ↓reduceIte]
      rfl
    · simp only [EStateM.run_bind, EStateM.run_get, hany]
      rfl

theorem run_placeRule (tx : Transaction) (id : ChainId) (exprs : List Expr) (place : Place) :
    (placeRule id exprs place).run tx = settled tx (tx.placeRule id exprs place) := by
  unfold placeRule Transaction.placeRule
  rw [run_live_bind, liveChain_bind]
  cases tx.liveChain? id <;> rfl

theorem run_deleteRule (tx : Transaction) (id : ChainId) (handle : Nat) :
    (deleteRule id handle).run tx =
      settled tx ((tx.deleteRule id handle).map fun tx => ((), tx)) := by
  unfold deleteRule Transaction.deleteRule
  rw [run_live_bind, liveChain_bind]
  cases hlive : tx.liveChain? id with
  | none => rfl
  | some chain =>
    by_cases hany : chain.rules.any fun rule => rule.handle = handle && rule.isActive tx.next
    · simp only [EStateM.run_bind, EStateM.run_get, hany, ↓reduceIte]
      rfl
    · simp only [EStateM.run_bind, EStateM.run_get, hany]
      rfl

/-- Rules are hidden one after the other. -/
theorem run_forM_hideRule (tx : Transaction) (id : ChainId) (handles : List Nat) :
    (handles.forM (hideRule id)).run tx = .ok () (tx.hideRules id handles) := by
  unfold hideRules
  induction handles generalizing tx with
  | nil => rfl
  | cons handle rest ih => exact ih _

theorem run_flushChain (tx : Transaction) (id : ChainId) :
    (flushChain id).run tx = settled tx (tx.flushChain id) := by
  unfold flushChain Transaction.flushChain
  rw [run_live_bind, liveChain_bind]
  cases hlive : tx.liveChain? id with
  | none => rfl
  | some chain =>
    simp only [EStateM.run_bind, EStateM.run_get, run_forM_hideRule]
    rfl

/-- An operation in place does what the operation does; one that is refused writes nothing. -/
theorem run_perform (tx : Transaction) (op : Operation) :
    (perform op).run tx = settled tx (tx.apply op) := by
  have hanswer : ∀ {α : Type} (f : α → Answer) {x : InPlace α}
      {done : Except EngineError (α × Transaction)}, x.run tx = settled tx done →
      (x >>= fun a => pure (f a)).run tx = settled tx (done.map fun (a, tx) => (f a, tx)) := by
    intro α f x done h
    rw [EStateM.run_bind, h]
    cases done <;> rfl
  cases op with
  | addChain name policy => exact hanswer .chain (run_addChain tx name policy)
  | deleteChain id =>
    refine (hanswer (fun _ => .done) (run_deleteChain tx id)).trans ?_
    cases hdelete : tx.deleteChain id <;> simp only [apply, hdelete] <;> rfl
  | placeRule id exprs place => exact hanswer .handle (run_placeRule tx id exprs place)
  | deleteRule id handle =>
    refine (hanswer (fun _ => .done) (run_deleteRule tx id handle)).trans ?_
    cases hdelete : tx.deleteRule id handle <;> simp only [apply, hdelete] <;> rfl
  | flushChain id => exact hanswer .count (run_flushChain tx id)
  | chainId name => rfl

theorem performAll_eq (tx : Transaction) (ops : List Operation) :
    performAll tx ops = tx.applyAll ops := by
  unfold applyAll
  induction ops generalizing tx with
  | nil => rfl
  | cons op rest ih =>
    unfold performAll Operation.runAll
    rw [run_perform]
    -- a refusal goes on with the state from before
    cases tx.apply op with
    | error error => simp only [settled, ih]
    | ok done => simp only [settled, ih]

end InPlace

end Transaction

end RuleChain
