import RuleChain.Proofs.Edits

/-! # Open transactions

  `Transaction.Open origin tx` is what holds of a transaction that was begun at the table
  `origin`, after any of its operations: its table differs from `origin` by its log, and the
  deleted chains are those that the log names, all of them without rules in the next generation.

  `Transaction.Edit` tells once what an operation that is not refused does; that each such edit
  keeps the invariant needs no look at the operations themselves.
-/

namespace RuleChain

namespace Transaction

/-! ### One operation after the other -/

/-- Makes operations one after the other on a state; one that is refused changes nothing. -/
def Operation.runAll {σ : Type} (apply : σ → Operation → Except EngineError (Answer × σ)) :
    σ → List Operation → List (Except EngineError Answer) × σ
  | state, [] => ([], state)
  | state, op :: rest =>
    match apply state op with
    | .error error =>
      let (answers, last) := runAll apply state rest
      (.error error :: answers, last)
    | .ok (answer, after) =>
      let (answers, last) := runAll apply after rest
      (.ok answer :: answers, last)

/-- Makes operations in an open transaction. -/
def applyAll (tx : Transaction) : List Operation → List (Except EngineError Answer) × Transaction :=
  Operation.runAll apply tx

section runAll

variable {σ τ : Type} {apply : σ → Operation → Except EngineError (Answer × σ)}
  {apply' : τ → Operation → Except EngineError (Answer × τ)} {P : σ → Prop}

/-- What each of some operations keeps is kept by all of them. -/
theorem Operation.runAll_keeps_of_mem {ops : List Operation}
    (hstep : ∀ {state op answer after}, op ∈ ops → P state → apply state op = .ok (answer, after) →
      P after)
    {state : σ} (h : P state) : P (runAll apply state ops).2 := by
  induction ops generalizing state with
  | nil => exact h
  | cons op rest ih =>
    have hrest := fun {state op answer after} (hmem : op ∈ rest) =>
      @hstep state op answer after (List.mem_cons_of_mem _ hmem)
    unfold runAll
    split
    · exact ih hrest h
    · next happly => exact ih hrest (hstep List.mem_cons_self h happly)

/-- What every operation keeps is kept. -/
theorem Operation.runAll_keeps
    (hstep : ∀ {state op answer after}, P state → apply state op = .ok (answer, after) → P after)
    {state : σ} (h : P state) (ops : List Operation) : P (runAll apply state ops).2 :=
  runAll_keeps_of_mem (fun _ => hstep) h

/-- If one state stands for another and every operation answers alike on both, so do several. -/
theorem Operation.runAll_map {f : σ → τ}
    (hstep : ∀ {state op answer after}, P state → apply state op = .ok (answer, after) → P after)
    (hagree : ∀ {state}, P state → ∀ op, apply' (f state) op =
      (apply state op).map fun (answer, after) => (answer, f after))
    {state : σ} (h : P state) (ops : List Operation) :
    runAll apply' (f state) ops =
      ((runAll apply state ops).1, f (runAll apply state ops).2) := by
  induction ops generalizing state with
  | nil => rfl
  | cons op rest ih =>
    unfold runAll
    rw [hagree h op]
    cases happly : apply state op with
    | error e =>
      simp only [Except.map]
      rw [ih h]
    | ok done =>
      simp only [Except.map]
      rw [ih (hstep h happly)]

end runAll

/-! ### What an operation does -/

/-- What an operation that is not refused makes of a transaction. -/
inductive Edit (tx : Transaction) : Transaction → Prop where
  | keep : tx.Edit tx
  | addChain (name : String) (policy : Option Policy)
    (free : tx.table.chains.lookup? name = none) :
    tx.Edit { tx with
      table := { tx.table with
        chains := tx.table.chains.insert ⟨⟨tx.table.nextChain⟩, name, [], policy.map fun policy =>
          ⟨policy, tx.table.ns, .ofShardCount tx.table.statsShards⟩⟩
        nextChain := tx.table.nextChain + 1 }
      log := .addChain ⟨tx.table.nextChain⟩ :: tx.log }
  | deleteChain {id : ChainId} {chain : Chain} (live : tx.liveChain? id = some chain)
    (empty : (chain.plain tx.next).rules = []) :
    tx.Edit { tx with deleted := id :: tx.deleted, log := .deleteChain id :: tx.log }
  | placeRule {id : ChainId} {chain : Chain} (live : tx.liveChain? id = some chain)
    (exprs : List Expr) (place : Place) :
    tx.Edit { tx with
      table := { tx.table.modifyChain id (·.mapRules (place.link
        ⟨tx.table.nextHandle, exprs, .only tx.next⟩)) with nextHandle := tx.table.nextHandle + 1 }
      log := .addRule id tx.table.nextHandle :: tx.log }
  | hideRules {id : ChainId} {chain : Chain} (live : tx.liveChain? id = some chain)
    {handles : List Nat} (shown : handles.Sublist ((chain.plain tx.next).rules.map (·.1))) :
    tx.Edit (tx.hideRules id handles)

section

variable {tx tx' : Transaction} {id : ChainId} {handle : Nat}

theorem any_isActive_iff {chain : Chain} {g : Generation} :
    chain.rules.any (·.isActive g) = true ↔ (chain.plain g).rules ≠ [] := by
  rw [Ne, Chain.plain_rules_eq_nil_iff]
  simp [Rule.isActive]

theorem any_handle_iff {chain : Chain} {g : Generation} :
    (chain.rules.any fun rule => rule.handle = handle && rule.isActive g) = true ↔
      handle ∈ (chain.plain g).rules.map (·.1) := by
  rw [Chain.mem_plain_handles]
  simp [Rule.isActive]

theorem map_handle_visibleRules (chain : Chain) (g : Generation) :
    (chain.visibleRules g).map (·.handle) = (chain.plain g).rules.map (·.1) := by
  simp [Chain.plain, Rule.plain, Function.comp_def]

/-- An operation that asks for a live chain is refused, or there is one. -/
theorem exists_of_liveChain_bind {α : Type} {f : Chain → Except EngineError α} {a : α}
    (h : (tx.liveChain id >>= f) = .ok a) :
    ∃ chain, tx.liveChain? id = some chain ∧ f chain = .ok a := by
  unfold liveChain at h
  cases hlive : tx.liveChain? id with
  | none =>
    rw [hlive] at h
    cases h
  | some chain =>
    rw [hlive] at h
    exact ⟨chain, rfl, h⟩

theorem edit_of_apply {op : Operation} {answer : Answer}
    (h : tx.apply op = .ok (answer, tx')) : tx.Edit tx' := by
  cases op with
  | addChain name policy =>
    simp only [apply, addChain] at h
    split at h
    · cases h
    · next hfree =>
      cases h
      exact .addChain name _ (Option.not_isSome_iff_eq_none.mp hfree)
  | deleteChain id =>
    simp only [apply, Except.map] at h
    split at h
    · cases h
    · next after hdelete =>
      cases h
      obtain ⟨chain, hlive, hdelete⟩ := exists_of_liveChain_bind hdelete
      -- a chain that the next generation shows a rule of is not deleted
      by_cases hany : chain.rules.any (·.isActive tx.next)
      · simp [hany] at hdelete
        cases hdelete
      · simp only [hany] at hdelete
        cases hdelete
        exact .deleteChain hlive (Decidable.not_not.mp (mt any_isActive_iff.mpr hany))
  | placeRule id exprs place =>
    simp only [apply, Except.map] at h
    split at h
    · cases h
    · next after hplace =>
      cases h
      obtain ⟨chain, hlive, hplace⟩ := exists_of_liveChain_bind hplace
      cases hplace
      exact .placeRule hlive exprs place
  | deleteRule id handle =>
    simp only [apply, Except.map] at h
    split at h
    · cases h
    · next after hdelete =>
      cases h
      obtain ⟨chain, hlive, hdelete⟩ := exists_of_liveChain_bind hdelete
      split at hdelete
      · next hany =>
        cases hdelete
        exact .hideRules hlive (List.singleton_sublist.mpr (any_handle_iff.mp hany))
      · cases hdelete
  | flushChain id =>
    simp only [apply, Except.map] at h
    split at h
    · cases h
    · next after hflush =>
      cases h
      obtain ⟨chain, hlive, hflush⟩ := exists_of_liveChain_bind hflush
      cases hflush
      -- a flush hides all rules that are shown
      have hall : ((chain.visibleRules tx.next).map (·.handle)).Sublist
          ((chain.plain tx.next).rules.map (·.1)) := by
        rw [map_handle_visibleRules]
      exact .hideRules hlive hall
  | chainId name =>
    cases h
    exact .keep

/-- The writer does not touch the number of readers. -/
theorem readers_hideRules (tx : Transaction) (id : ChainId) (handles : List Nat) :
    (tx.hideRules id handles).table.readers = tx.table.readers := by
  unfold hideRules
  induction handles generalizing tx with
  | nil => rfl
  | cons handle rest ih => exact ih _

theorem Edit.readers_eq (h : tx.Edit tx') : tx'.table.readers = tx.table.readers := by
  cases h with
  | hideRules live shown => exact readers_hideRules ..
  | _ => rfl

/-- A rollback changes the chains and nothing else. -/
theorem rollback_eq (tx : Transaction) :
    tx.rollback = { tx.table with chains := tx.rollback.chains } := by
  unfold rollback
  generalize tx.table = t
  -- on the log, for any table: undoing one change touches nothing but the chains
  induction tx.log generalizing t with
  | nil => rfl
  | cons change rest ih =>
    refine (ih _).trans ?_
    cases change <;> rfl

end

/-! ### The invariant -/

/-- The transaction was begun at the table `origin`. -/
structure Open (origin : Table) (tx : Transaction) : Prop where
  edits : Edits origin tx.table tx.log
  next_eq : tx.next = tx.table.generation.other
  deleted_iff : ∀ id, id ∈ tx.deleted ↔ .deleteChain id ∈ tx.log
  deleted_rules : ∀ {id}, id ∈ tx.deleted → (tx.table.chains.plain tx.next).rules id = []

namespace Open

variable {origin : Table} {tx tx' : Transaction} {id : ChainId} {handle : Nat}

theorem begin {t : Table} (h : t.AtRest) : t.begin.Open t where
  edits := .refl h
  next_eq := rfl
  deleted_iff := by simp [Table.begin]
  deleted_rules hin := by cases hin

/-- A handle that the next generation shows comes from the counter and was not deleted. -/
theorem shown (h : tx.Open origin) {chain : Chain} (hget : tx.table.chains.get? id = some chain)
    (hshown : handle ∈ (chain.plain tx.next).rules.map (·.1)) :
    handle < tx.table.nextHandle ∧ .deleteRule id handle ∉ tx.log := by
  obtain ⟨rule, hrule, rfl, hmark⟩ := Chain.mem_plain_handles.mp hshown
  refine ⟨h.edits.wellFormed.handle_lt hget rule hrule, ?_⟩
  rw [h.next_eq] at hmark
  exact ((h.edits.chain hget).coming rule hrule).mp hmark

/-- Hiding one rule after the other, none of them twice. -/
theorem hideRules (h : tx.Open origin) (hlive : id ∉ tx.deleted) {handles : List Nat}
    (hnodup : handles.Nodup)
    (hshown : ∀ handle ∈ handles, handle < tx.table.nextHandle ∧ .deleteRule id handle ∉ tx.log) :
    (tx.hideRules id handles).Open origin := by
  -- on the handles: hiding one of them leaves the others as they were, as none comes twice
  induction handles generalizing tx with
  | nil => exact h
  | cons handle rest ih =>
    obtain ⟨hnotin, hnodup⟩ := List.nodup_cons.mp hnodup
    obtain ⟨hlt, hnew⟩ := hshown handle List.mem_cons_self
    refine ih ?_ hlive hnodup ?_
    · constructor
      · have hlogged : Logged tx.table (.deleteRule id handle :: tx.log) :=
          h.edits.logged.deleteRule hnew hlt
        have hedits := h.edits.mark hlogged (fun change hne => by simp [hne])
          (show false = true ↔ .deleteRule id handle ∉ _ :: tx.log by simp)
        rw [← h.next_eq] at hedits
        exact hedits
      · exact h.next_eq
      · simpa using h.deleted_iff
      · intro i hi
        have hne : i ≠ id := fun heq => hlive (heq ▸ hi)
        exact (PlainMap.rules_congr (ChainMap.plain_modify_of_ne hne)).trans (h.deleted_rules hi)
    · intro other hmem
      obtain ⟨hlt, hnew⟩ := hshown other (List.mem_cons_of_mem _ hmem)
      refine ⟨hlt, ?_⟩
      have hne : other ≠ handle := fun heq => hnotin (heq ▸ hmem)
      simp [hne, hnew]

theorem edit (h : tx.Open origin) (hedit : tx.Edit tx') : tx'.Open origin := by
  cases hedit with
  | keep => exact h
  | addChain name policy free =>
    -- the operation looks for the chain itself, the invariant for its name
    have hidOf : tx.table.chains.idOf? name = none := by
      cases hid : tx.table.chains.idOf? name with
      | none => rfl
      | some id =>
        obtain ⟨chain, hget, -⟩ := h.edits.wellFormed.idOf?_iff.mp hid
        simp [ChainMap.lookup?, hid, hget] at free
    constructor
    · exact h.edits.addChain _ hidOf
    · exact h.next_eq
    · simpa using h.deleted_iff
    · intro i hi
      rw [ChainMap.plain_insert h.edits.wellFormed.slots_le, PlainMap.rules, PlainMap.insert]
      -- the new chain has no rules to begin with
      split
      · rfl
      · exact h.deleted_rules hi
  | @deleteChain id chain live empty =>
    obtain ⟨hlive, hget⟩ := liveChain?_eq_some_iff.mp live
    -- a chain is live only once, so no deletion is logged twice
    have hnew : .deleteChain id ∉ tx.log := fun hin => hlive ((h.deleted_iff id).mpr hin)
    constructor
    · refine h.edits.relog id (h.edits.logged.deleteChain hnew) ?_
      intro change hne
      simp [hne]
    · exact h.next_eq
    · intro i
      simp [h.deleted_iff]
    · intro i hi
      rcases List.mem_cons.mp hi with rfl | hi
      · rw [PlainMap.rules, ChainMap.plain_of_get? hget]
        exact empty
      · exact h.deleted_rules hi
  | @placeRule id chain live exprs place =>
    obtain ⟨hlive, hget⟩ := liveChain?_eq_some_iff.mp live
    constructor
    · rw [h.next_eq]
      exact h.edits.link exprs place
    · exact h.next_eq
    · simpa using h.deleted_iff
    · intro i hi
      -- only live chains get rules
      have hne : i ≠ id := fun heq => hlive (heq ▸ hi)
      exact (PlainMap.rules_congr (ChainMap.plain_modify_of_ne hne)).trans (h.deleted_rules hi)
  | @hideRules id chain live handles shown =>
    obtain ⟨hlive, hget⟩ := liveChain?_eq_some_iff.mp live
    -- no rule is shown twice, so none is hidden twice
    have hnodup : ((chain.plain tx.next).rules.map (·.1)).Nodup := by
      rw [← map_handle_visibleRules]
      exact (h.edits.wellFormed.handles_nodup hget).sublist (List.filter_sublist.map _)
    exact h.hideRules hlive (hnodup.sublist shown) fun handle hmem =>
      h.shown hget (shown.subset hmem)

theorem apply (h : tx.Open origin) {op : Operation} {answer : Answer}
    (happly : tx.apply op = .ok (answer, tx')) : Transaction.Open origin tx' :=
  h.edit (edit_of_apply happly)

theorem applyAll (h : tx.Open origin) (ops : List Operation) :
    (tx.applyAll ops).2.Open origin :=
  Operation.runAll_keeps (fun hopen happly => hopen.apply happly) h ops

/-! ### Giving up -/

/-- A transaction that is undone leaves a table at rest which shows what it showed before. -/
theorem rollback (h : tx.Open origin) (horigin : origin.AtRest) :
    tx.rollback.AtRest ∧ tx.rollback.generation = origin.generation ∧
      tx.rollback.sequence = origin.sequence ∧
      tx.rollback.chains.plain origin.generation = origin.chains.plain origin.generation := by
  have hundone : Edits origin tx.rollback [] := by
    rw [Transaction.rollback, h.next_eq]
    exact h.edits.rollback
  refine ⟨hundone.atRest horigin, hundone.generation_eq, hundone.sequence_eq, ?_⟩
  rw [← hundone.plain_eq, hundone.generation_eq]

end Open

end Transaction

end RuleChain
