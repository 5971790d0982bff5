import RuleChain.Proofs.OpenTransaction

/-! # Drafts

  The operations of a transaction without generations. A draft is a private copy of the ruleset
  in which rules are really appended, prepended and removed; only deleted chains are kept, so
  that their names stay taken, and settled at the end.

  `Transaction.draft` is the draft that a transaction stands for. `Transaction.apply_draft` says
  that every operation answers, or is refused, as the same operation on the draft, and leads to a
  transaction that stands for the draft after it.
-/

namespace RuleChain

/-! ### Rulesets without generations -/

/-- The chains of a ruleset, and the next id and handle. -/
structure PlainRuleset where
  chains : PlainMap
  nextChain : Nat
  nextHandle : Nat

namespace PlainRuleset

/-- Whether there is a chain with an id and a name. -/
def isNamed (r : PlainRuleset) (name : String) (id : ChainId) : Bool :=
  (r.chains id).any (·.name = name)

/-- The chain with a name. -/
def named? (r : PlainRuleset) (name : String) : Option ChainId :=
  ((List.range r.nextChain).map ChainId.mk).find? (r.isNamed name)

end PlainRuleset

/-- The ruleset that a generation shows. -/
def Table.plain (t : Table) (g : Generation) : PlainRuleset where
  chains := t.chains.plain g
  nextChain := t.nextChain
  nextHandle := t.nextHandle

/-- A private copy of a ruleset. -/
structure Draft where
  ruleset : PlainRuleset
  /-- The chains marked as deleted. -/
  deleted : List ChainId

namespace Draft

open Transaction (Operation Answer)

/-- The chain with an id, unless it is marked as deleted. -/
def live (d : Draft) (id : ChainId) : Except EngineError PlainChain :=
  match if id ∈ d.deleted then none else d.ruleset.chains id with
  | some chain => .ok chain
  | none => .error (.unknownChainId id)

/-- Changes one chain. -/
def modify (d : Draft) (id : ChainId) (f : PlainChain → PlainChain) : Draft :=
  { d with ruleset := { d.ruleset with chains := d.ruleset.chains.modify id f } }

def addChain (d : Draft) (name : String) (policy : Option Policy) :
    Except EngineError (Answer × Draft) :=
  let id : ChainId := ⟨d.ruleset.nextChain⟩
  if (d.ruleset.named? name).isSome then .error (.duplicateChain name)
  else
    .ok (.chain id,
      { d with
        ruleset := { d.ruleset with
          chains := d.ruleset.chains.insert id ⟨name, policy, []⟩
          nextChain := d.ruleset.nextChain + 1 } })

def deleteChain (d : Draft) (id : ChainId) : Except EngineError (Answer × Draft) := do
  let chain ← d.live id
  if chain.rules = [] then return (.done, { d with deleted := id :: d.deleted })
  else throw (.chainNotEmpty chain.name)

def placeRule (d : Draft) (id : ChainId) (exprs : List Expr) (place : Transaction.Place) :
    Except EngineError (Answer × Draft) := do
  let _ ← d.live id
  let handle := d.ruleset.nextHandle
  let linked := d.modify id (·.link place (handle, exprs))
  return (.handle handle, { linked with ruleset.nextHandle := handle + 1 })

def deleteRule (d : Draft) (id : ChainId) (handle : Nat) : Except EngineError (Answer × Draft) := do
  let chain ← d.live id
  if handle ∈ chain.rules.map (·.1) then return (.done, d.modify id (·.without [handle]))
  else throw (.ruleNotFound chain.name handle)

def flushChain (d : Draft) (id : ChainId) : Except EngineError (Answer × Draft) := do
  let chain ← d.live id
  return (.count chain.rules.length, d.modify id fun chain => { chain with rules := [] })

/-- Runs an operation. -/
def apply (d : Draft) : Operation → Except EngineError (Answer × Draft)
  | .addChain name policy => d.addChain name policy
  | .deleteChain id => d.deleteChain id
  | .placeRule id exprs place => d.placeRule id exprs place
  | .deleteRule id handle => d.deleteRule id handle
  | .flushChain id => d.flushChain id
  | .chainId name => .ok (.found ((d.ruleset.named? name).filter (· ∉ d.deleted)), d)

/-- Makes operations on a draft. -/
def applyAll (d : Draft) : List Operation → List (Except EngineError Answer) × Draft :=
  Operation.runAll apply d

/-- The ruleset without the chains marked as deleted. -/
def settle (d : Draft) : PlainRuleset :=
  { d.ruleset with
    chains := fun id => if id ∈ d.deleted then none else d.ruleset.chains id }

end Draft

/-! ### Names -/

section names

variable {t : Table} (h : t.WellFormed) (name : String)
include h

/-- A search through the ids finds the chain that the name is registered for. -/
theorem Table.WellFormed.named?_eq (g : Generation) :
    (t.plain g).named? name = t.chains.idOf? name := by
  have hiff : ∀ id, (t.plain g).isNamed name id = true ↔ t.chains.idOf? name = some id := by
    intro id
    rw [h.idOf?_iff]
    cases hget : t.chains.get? id <;>
      simp [PlainRuleset.isNamed, Table.plain, ChainMap.plain, Chain.plain, hget]
  -- names lead to one chain only, so the first chain found is the one
  unfold PlainRuleset.named?
  cases hfound : ((List.range t.nextChain).map ChainId.mk).find? ((t.plain g).isNamed name) with
  | some id => exact hfound.trans ((hiff id).mp (List.find?_some hfound)).symm
  | none =>
    refine hfound.trans ?_
    cases hid : t.chains.idOf? name with
    | none => rfl
    | some id =>
      obtain ⟨chain, hget, -⟩ := h.idOf?_iff.mp hid
      have hmem : id ∈ (List.range t.nextChain).map ChainId.mk :=
        List.mem_map.mpr ⟨id.index, List.mem_range.mpr (h.index_lt hget), rfl⟩
      exact absurd ((hiff id).mpr hid) (List.find?_eq_none.mp hfound id hmem)

theorem Table.WellFormed.lookup?_map_id :
    (t.chains.lookup? name).map (·.id) = t.chains.idOf? name := by
  cases hid : t.chains.idOf? name with
  | none => simp [ChainMap.lookup?, hid]
  | some id =>
    obtain ⟨chain, hget, -⟩ := h.idOf?_iff.mp hid
    simp [ChainMap.lookup?, hid, hget, h.id_eq hget]

end names

/-! ### Operations on the draft -/

namespace PlainMap

variable {p : PlainMap} {id : ChainId} {f f' : PlainChain → PlainChain}

theorem modify_congr (h : ∀ chain, p id = some chain → f chain = f' chain) :
    p.modify id f = p.modify id f' := by
  funext i
  unfold modify
  split
  · next hi =>
    subst hi
    cases hp : p i with
    | none => rfl
    | some chain => simp only [Option.map_some, h chain hp]
  · rfl

theorem modify_modify : (p.modify id f).modify id f' = p.modify id (f' ∘ f) := by
  funext i
  simp only [modify]
  split <;> simp

end PlainMap

namespace Transaction

variable {tx : Transaction}

/-- The draft that a transaction stands for. -/
def draft (tx : Transaction) : Draft where
  ruleset := tx.table.plain tx.next
  deleted := tx.deleted

theorem live_draft (tx : Transaction) (id : ChainId) :
    tx.draft.live id = (tx.liveChain id).map (·.plain tx.next) := by
  unfold Draft.live liveChain liveChain?
  simp only [draft, Table.plain, ChainMap.plain]
  by_cases hdeleted : id ∈ tx.deleted
  · simp [hdeleted, Except.map]
  · cases tx.table.chains.get? id <;> simp [hdeleted, Except.map]

/-- What is hidden is removed. -/
theorem draft_hideRules (tx : Transaction) (id : ChainId) (handles : List Nat) :
    (tx.hideRules id handles).draft = tx.draft.modify id (·.without handles) := by
  -- handle by handle, each removal from the draft following the one before
  unfold hideRules
  induction handles generalizing tx with
  | nil =>
    have hnone : ∀ p : PlainMap, p.modify id (·.without []) = p := by
      intro p
      funext i
      simp [PlainMap.modify, PlainChain.without]
    simp only [List.foldl_nil, Draft.modify, hnone]
  | cons handle rest ih =>
    have hplain : (tx.table.chains.modify id (·.modifyRule handle (·.deactivate tx.next))).plain
        tx.next = (tx.table.chains.plain tx.next).modify id (·.without [handle]) :=
      ChainMap.plain_modify fun _ _ => Chain.plain_deactivate
    have hboth : ∀ p : PlainMap, (p.modify id (·.without [handle])).modify id (·.without rest) =
        p.modify id (·.without (handle :: rest)) := by
      intro p
      rw [PlainMap.modify_modify]
      refine PlainMap.modify_congr ?_
      intro chain _
      simp [PlainChain.without, List.filter_filter, Bool.and_comm]
    refine (ih _).trans ?_
    simp only [Draft.modify, draft, Table.plain, Table.modifyChain, hplain, hboth]

/-! ### The operations agree -/

/-- The answer, and the draft after it. -/
def drafted (done : Except EngineError (Answer × Transaction)) :
    Except EngineError (Answer × Draft) :=
  done.map fun (answer, after) => (answer, after.draft)

section agree

variable (h : tx.table.WellFormed) (id : ChainId)

include h in
theorem draft_addChain (name : String) (policy : Option Policy) :
    tx.draft.addChain name policy = drafted (tx.apply (.addChain name policy)) := by
  have hnamed : (tx.draft.ruleset.named? name).isSome = (tx.table.chains.lookup? name).isSome := by
    rw [draft, h.named?_eq, ← h.lookup?_map_id, Option.isSome_map]
  simp only [Draft.addChain, apply, Transaction.addChain, hnamed]
  split
  · rfl
  · simp only [Except.map, drafted]
    have hslots : ∀ base, tx.table.chains.slots.length ≤
        (⟨⟨tx.table.nextChain⟩, name, [], base⟩ : Chain).id.index := fun _ => h.slots_le
    simp only [draft, Table.plain, ChainMap.plain_insert (hslots _)]
    cases policy <;> rfl

theorem draft_deleteChain : tx.draft.deleteChain id = drafted (tx.apply (.deleteChain id)) := by
  simp only [Draft.deleteChain, apply, Transaction.deleteChain, live_draft]
  cases tx.liveChain id with
  | error e => rfl
  | ok chain =>
    by_cases hrules : (chain.plain tx.next).rules = []
    · have hany : chain.rules.any (·.isActive tx.next) = false := by
        rw [← Bool.not_eq_true, any_isActive_iff]
        exact fun hne => hne hrules
      simp [Except.map, bind, Except.bind, hrules, hany, pure, Except.pure, drafted, draft]
    · have hany := any_isActive_iff.mpr hrules
      simp only [Except.map, bind, Except.bind, if_neg hrules, hany, if_true]
      rfl

theorem draft_placeRule (exprs : List Expr) (place : Place) :
    tx.draft.placeRule id exprs place = drafted (tx.apply (.placeRule id exprs place)) := by
  simp only [Draft.placeRule, apply, Transaction.placeRule, live_draft]
  cases tx.liveChain id with
  | error e => rfl
  | ok chain =>
    have hplain : (tx.table.chains.modify id (·.mapRules (place.link
        ⟨tx.table.nextHandle, exprs, .only tx.next⟩))).plain tx.next =
        (tx.table.chains.plain tx.next).modify id
          (·.link place (tx.table.nextHandle, exprs)) := by
      refine ChainMap.plain_modify ?_
      intro c _
      rw [Chain.plain_link, if_pos (by simp [Rule.isActive])]
      rfl
    simp only [Except.map, bind, Except.bind, pure, Except.pure, drafted, draft, Draft.modify,
      Table.plain, Table.modifyChain, hplain]

theorem draft_deleteRule (handle : Nat) :
    tx.draft.deleteRule id handle = drafted (tx.apply (.deleteRule id handle)) := by
  simp only [Draft.deleteRule, apply, Transaction.deleteRule, live_draft]
  cases tx.liveChain id with
  | error e => rfl
  | ok chain =>
    simp only [Except.map, bind, Except.bind]
    by_cases hshown : handle ∈ (chain.plain tx.next).rules.map (·.1)
    · rw [if_pos hshown, if_pos (any_handle_iff.mpr hshown), ← draft_hideRules]
      rfl
    · rw [if_neg hshown, if_neg (mt any_handle_iff.mp hshown)]
      rfl

theorem draft_flushChain : tx.draft.flushChain id = drafted (tx.apply (.flushChain id)) := by
  simp only [Draft.flushChain, apply, Transaction.flushChain, liveChain, live_draft]
  cases hlive : tx.liveChain? id with
  | none => rfl
  | some chain =>
    obtain ⟨-, hget⟩ := liveChain?_eq_some_iff.mp hlive
    simp only [Except.map, bind, Except.bind, pure, Except.pure, drafted, draft_hideRules,
      map_handle_visibleRules, List.length_map]
    -- every rule that is shown has one of the handles, so none is left
    have hall : tx.draft.modify id (fun c => { c with rules := [] }) =
        tx.draft.modify id (·.without ((chain.plain tx.next).rules.map (·.1))) := by
      simp only [Draft.modify, draft, Table.plain]
      congr 2
      refine PlainMap.modify_congr ?_
      intro c hc
      rw [ChainMap.plain_of_get? hget] at hc
      cases hc
      simp only [PlainChain.without, PlainChain.mk.injEq, true_and]
      symm
      rw [List.filter_eq_nil_iff]
      intro rule hrule
      simpa using ⟨rule.2, hrule⟩
    rw [hall]

include h in
theorem draft_chainId (name : String) :
    tx.draft.apply (.chainId name) = drafted (tx.apply (.chainId name)) := by
  have hnamed : tx.draft.ruleset.named? name = (tx.table.chains.lookup? name).map (·.id) := by
    rw [draft, h.named?_eq, ← h.lookup?_map_id]
  simp only [Draft.apply, hnamed]
  rfl

include h in
/-- An operation answers as on the draft, and leads to the draft after it. -/
theorem apply_draft (op : Operation) : tx.draft.apply op = drafted (tx.apply op) := by
  cases op with
  | addChain name policy => exact draft_addChain h name policy
  | deleteChain id => exact draft_deleteChain id
  | placeRule id exprs place => exact draft_placeRule id exprs place
  | deleteRule id handle => exact draft_deleteRule id handle
  | flushChain id => exact draft_flushChain id
  | chainId name => exact draft_chainId h name

end agree

/-- So do all operations of a transaction. -/
theorem Open.applyAll_draft {origin : Table} (h : tx.Open origin) (ops : List Operation) :
    tx.draft.applyAll ops = ((tx.applyAll ops).1, (tx.applyAll ops).2.draft) :=
  Operation.runAll_map (fun hopen happly => hopen.apply happly)
    (fun hopen op => apply_draft hopen.edits.wellFormed op) h ops

end Transaction

end RuleChain
