import RuleChain.Proofs.Acceptance
import RuleChain.Proofs.Observation
import RuleChain.Proofs.Refinement

/-! # Operations that a commit never refuses

  What is sound stays sound when jumps and gotos are taken away and when chains and rules without
  any are added (`PlainMap.Thins`). So a transaction that only does that to the last committed
  ruleset is accepted, in whatever order and however often: it may delete rules, flush chains, add
  chains, and add rules that lead nowhere.

  The case of no operation at all shows that what a table serves does not depend on which of its two
  generations is current.
-/

namespace RuleChain

/-! ### Fewer jumps -/

namespace PlainMap

variable {p q r : PlainMap} {id : ChainId}

theorem mem_edges_iff {link : ChainId × JumpKind} :
    link ∈ p.edges id ↔ ∃ chain, p id = some chain ∧ ∃ rule ∈ chain.rules,
      link ∈ rule.2.filterMap Expr.target? := by
  rw [edges, List.mem_flatMap, rules]
  cases p id with
  | none => simp
  | some chain => simp

theorem Thins.refl (p : PlainMap) : p.Thins p where
  kept hp := ⟨_, hp, rfl⟩
  edges hmem := hmem

theorem Thins.trans (h : r.Thins q) (h' : q.Thins p) : r.Thins p where
  kept hp := by
    obtain ⟨chain', hq, hpolicy'⟩ := h'.kept hp
    obtain ⟨chain'', hr, hpolicy''⟩ := h.kept hq
    exact ⟨chain'', hr, hpolicy''.trans hpolicy'⟩
  edges hmem := h'.edges (h.edges hmem)

/-- A chain without rules is put where there is none. -/
theorem Thins.insert (hnone : p id = none) {chain : PlainChain} (hrules : chain.rules = []) :
    (p.insert id chain).Thins p where
  kept {i c} hp := by
    have hne : i ≠ id := by
      rintro rfl
      cases hnone.symm.trans hp
    exact ⟨c, by rw [PlainMap.insert, if_neg hne, hp], rfl⟩
  edges {i link} hmem := by
    obtain ⟨c, hc, rule, hrule, hlink⟩ := mem_edges_iff.mp hmem
    unfold PlainMap.insert at hc
    split at hc
    · cases hc
      rw [hrules] at hrule
      cases hrule
    · exact mem_edges_iff.mpr ⟨c, hc, rule, hrule, hlink⟩

/-- A chain is changed by no rule but those that lead nowhere. -/
theorem Thins.modify {f : PlainChain → PlainChain} (hpolicy : ∀ c, (f c).policy = c.policy)
    (hrules : ∀ c, ∀ rule ∈ (f c).rules, rule ∈ c.rules ∨ rule.2.filterMap Expr.target? = []) :
    (p.modify id f).Thins p where
  kept {i c} hp := by
    by_cases heq : i = id
    · exact ⟨f c, by rw [PlainMap.modify, if_pos heq, hp, Option.map_some], hpolicy c⟩
    · exact ⟨c, by rw [PlainMap.modify, if_neg heq, hp], rfl⟩
  edges {i link} hmem := by
    obtain ⟨c, hc, rule, hrule, hlink⟩ := mem_edges_iff.mp hmem
    unfold PlainMap.modify at hc
    split at hc
    · obtain ⟨c₀, hc₀, rfl⟩ := Option.map_eq_some_iff.mp hc
      rcases hrules c₀ rule hrule with hold | hnowhere
      · exact mem_edges_iff.mpr ⟨c₀, hc₀, rule, hold, hlink⟩
      · rw [hnowhere] at hlink
        cases hlink
    · exact mem_edges_iff.mpr ⟨c, hc, rule, hrule, hlink⟩

end PlainMap

/-! ### Harmless operations -/

/-- The operation adds no jump or goto and deletes no chain. -/
def Transaction.Operation.Harmless : Transaction.Operation → Prop
  | .placeRule _ exprs _ => ∀ e ∈ exprs, e.target? = none
  | .deleteChain _ => False
  | _ => True

instance : DecidablePred Transaction.Operation.Harmless
  | .placeRule _ exprs _ => inferInstanceAs (Decidable (∀ e ∈ exprs, e.target? = none))
  | .deleteChain _ => inferInstanceAs (Decidable False)
  | .addChain _ _ => inferInstanceAs (Decidable True)
  | .deleteRule _ _ => inferInstanceAs (Decidable True)
  | .flushChain _ => inferInstanceAs (Decidable True)
  | .chainId _ => inferInstanceAs (Decidable True)

/-- A harmless operation on a draft marks no chain as deleted, and only takes jumps and gotos
away. -/
theorem Draft.thins_of_apply {d d' : Draft} {op : Transaction.Operation}
    {answer : Transaction.Answer} (hharmless : op.Harmless)
    (hfree : d.ruleset.chains ⟨d.ruleset.nextChain⟩ = none)
    (h : d.apply op = .ok (answer, d')) :
    d'.deleted = d.deleted ∧ d'.ruleset.chains.Thins d.ruleset.chains := by
  cases op with
  | addChain name policy =>
    simp only [apply, addChain] at h
    split at h
    · cases h
    · cases h
      exact ⟨rfl, .insert hfree rfl⟩
  | deleteChain id => exact hharmless.elim
  | placeRule id exprs place =>
    simp only [apply, placeRule, bind, Except.bind] at h
    split at h
    · cases h
    · cases h
      have hnowhere : exprs.filterMap Expr.target? = [] :=
        List.filterMap_eq_nil_iff.mpr hharmless
      refine ⟨rfl, .modify (fun _ => rfl) ?_⟩
      intro c rule hrule
      -- the rule is the new one, at whichever end, or an old one
      have hcases : rule = (d.ruleset.nextHandle, exprs) ∨ rule ∈ c.rules := by
        cases place <;> simpa [PlainChain.link, or_comm] using hrule
      rcases hcases with rfl | hold
      · exact Or.inr hnowhere
      · exact Or.inl hold
  | deleteRule id handle =>
    simp only [apply, deleteRule, bind, Except.bind] at h
    split at h
    · cases h
    · split at h
      · cases h
        refine ⟨rfl, .modify (fun _ => rfl) ?_⟩
        intro c rule hrule
        exact Or.inl (List.mem_of_mem_filter hrule)
      · cases h
  | flushChain id =>
    simp only [apply, flushChain, bind, Except.bind] at h
    split at h
    · cases h
    · cases h
      refine ⟨rfl, .modify (fun _ => rfl) ?_⟩
      intro c rule hrule
      exact absurd hrule List.not_mem_nil
  | chainId name =>
    cases h
    exact ⟨rfl, .refl _⟩

namespace Transaction

/-- The transaction was begun at the table, has deleted no chain, and has added no jump or goto. -/
structure Thinned (t : Table) (tx : Transaction) : Prop where
  isOpen : tx.Open t
  deleted : tx.deleted = []
  thins : (tx.table.chains.plain tx.next).Thins (t.chains.plain t.generation)

namespace Thinned

variable {t : Table} {tx tx' : Transaction}

theorem begin (h : t.AtRest) : t.begin.Thinned t where
  isOpen := .begin h
  deleted := rfl
  thins := by
    show (t.chains.plain t.generation.other).Thins (t.chains.plain t.generation)
    rw [h.plain_eq t.generation.other t.generation]
    exact .refl _

theorem apply (h : tx.Thinned t) {op : Operation} {answer : Answer} (hharmless : op.Harmless)
    (happly : tx.apply op = .ok (answer, tx')) : Transaction.Thinned t tx' := by
  have hwf := h.isOpen.edits.wellFormed
  have hfree : tx.draft.ruleset.chains ⟨tx.draft.ruleset.nextChain⟩ = none :=
    ChainMap.plain_eq_none_iff.mpr hwf.get?_next
  -- the draft that the transaction stands for makes the same operation
  have hdraft := apply_draft hwf op
  rw [happly] at hdraft
  obtain ⟨hsame, hthins⟩ := Draft.thins_of_apply hharmless hfree hdraft
  exact ⟨h.isOpen.apply happly, hsame.trans h.deleted, hthins.trans h.thins⟩

theorem applyAll (h : tx.Thinned t) {ops : List Operation} (hops : ∀ op ∈ ops, op.Harmless) :
    (tx.applyAll ops).2.Thinned t :=
  Operation.runAll_keeps_of_mem (fun hmem hthinned happly => hthinned.apply (hops _ hmem) happly) h

/-- What such a transaction leaves is sound, as it was at the beginning. -/
theorem sound (h : tx.Thinned t) (hrest : t.AtRest) : tx.live.Sound := by
  have hlive : tx.live = tx.table.chains.plain tx.next := by
    funext id
    rw [live, h.deleted, if_neg List.not_mem_nil]
  rw [hlive]
  exact hrest.sound.thin h.thins

/-- So it is accepted. -/
theorem commit (h : tx.Thinned t) (hrest : t.AtRest) : tx.commit.1 = .ok (t.sequence + 1) := by
  have hvalid := (validate_eq_ok_iff h.isOpen.edits.wellFormed.id_eq).mpr (h.sound hrest)
  obtain ⟨n, hn⟩ := exists_commit_iff.mpr hvalid
  obtain ⟨hsequence, -⟩ := h.isOpen.commit_ok (Prod.ext hn rfl : tx.commit = (.ok n, _, _))
  rw [hn, hsequence]

end Thinned

end Transaction

/-! ### No operation -/

/-- A commit without changes makes the other generation current, and that is all. -/
theorem Table.AtRest.commit_begin {t : Table} (h : t.AtRest) :
    ∃ notices, t.begin.commit = (.ok (t.sequence + 1), t.flip, notices) := by
  have hvalid := Transaction.exists_commit_iff.mp ⟨_, (Transaction.Thinned.begin h).commit h⟩
  have hpublish : t.begin.publish? = .ok t.begin.publish :=
    Transaction.publish?_eq_ok_iff.mpr ⟨hvalid, rfl⟩
  refine ⟨t.begin.publish.notices, ?_⟩
  unfold Transaction.commit
  rw [hpublish]
  rfl

/-- At rest it does not matter to a packet which generation is current. -/
theorem Table.AtRest.tryEvaluate_flip {t : Table} (h : t.AtRest) (ev : Evaluator) (packet : Packet)
    (base : ChainId) :
    (ev.tryEvaluate t.flip packet base).result = (ev.tryEvaluate t packet base).result ∧
    (ev.tryEvaluate t.flip packet base).events = (ev.tryEvaluate t packet base).events := by
  have halike : (ev.journey t packet).Alike (ev.journey t.flip packet) fun _ => True := by
    constructor
    · rfl
    · rfl
    · rfl
    · intro id _
      exact congrFun (h.plain_eq t.generation.other t.generation) id
    · exact fun _ _ => trivial
    · exact h.wellFormed.id_eq
    · exact h.wellFormed.id_eq
  have hsame : ∀ {id chain chain'}, t.chains.get? id = some chain →
      t.flip.chains.get? id = some chain' →
      chain'.base.map BaseChain.ns = chain.base.map BaseChain.ns := by
    intro id chain chain' hget hget'
    cases hget.symm.trans hget'
    rfl
  obtain ⟨hresult, hevents, -⟩ := halike.tryEvaluate trivial hsame
  exact ⟨hresult, hevents⟩

namespace System

variable {t : Table} {guards : List Generation}

/-- A transaction of harmless operations is accepted, whichever of them are refused. Without any
operation the table has the same chains afterwards, with the same visible rules, and every
evaluation gives the same result with the same events, although the other generation is current. -/
theorem Reachable.harmless_accepted (h : Reachable ⟨.rest t, guards⟩) :
    (∀ ops : List Transaction.Operation, (∀ op ∈ ops, op.Harmless) →
      (t.begin.applyAll ops).2.commit.1 = .ok (t.sequence + 1)) ∧
    ∃ t' notices, t.begin.commit = (.ok (t.sequence + 1), t', notices) ∧
      t'.generation ≠ t.generation ∧
      (∀ id, t'.chains.get? id = t.chains.get? id) ∧
      (∀ id chain, t.chains.get? id = some chain →
        chain.visibleRules t'.generation = chain.visibleRules t.generation) ∧
      ∀ (ev : Evaluator) (packet : Packet) (base : ChainId),
        (ev.tryEvaluate t' packet base).result = (ev.tryEvaluate t packet base).result ∧
        (ev.tryEvaluate t' packet base).events = (ev.tryEvaluate t packet base).events := by
  obtain ⟨hrest, -⟩ := h.inv.good
  constructor
  · intro ops hops
    exact ((Transaction.Thinned.begin hrest).applyAll hops).commit hrest
  · obtain ⟨notices, hcommit⟩ := hrest.commit_begin
    refine ⟨t.flip, notices, hcommit, Generation.other_ne t.generation, fun _ => rfl, ?_,
      hrest.tryEvaluate_flip⟩
    intro id chain hget
    have hmarks := hrest.marks hget
    rw [Chain.visibleRules_of_marks hmarks, Chain.visibleRules_of_marks hmarks]

/-- An emergency: the chain that the base chain jumps to is flushed, a rule is deleted, and packets
are dropped by a rule in front and by a new base chain. -/
theorem Reachable.harmless_accepted_flushed : ∃ t : Table, Reachable ⟨.rest t, []⟩ ∧
    let ops : List Transaction.Operation :=
      [.flushChain ⟨1⟩, .deleteRule ⟨0⟩ 1, .placeRule ⟨0⟩ [.ofVerdict (.final .drop)] .front,
        .addChain "output" (some .drop), .placeRule ⟨2⟩ [.ofVerdict .leave] .back]
    (∀ op ∈ ops, op.Harmless) ∧ (t.begin.applyAll ops).2.commit.1 = .ok 2 ∧
    t.begin.commit.1 = .ok 2 := by
  have committed := (((create "filter" .initial 1).step .begin).applyAll
    [.addChain "input" (some .accept), .addChain "web" none,
      .placeRule ⟨0⟩ [.ofVerdict (.jump ⟨1⟩)] .back,
      .placeRule ⟨1⟩ [.ofVerdict (.final .accept)] .back]).commit
  refine ⟨_, committed, ?_⟩
  intro ops
  have hops : ∀ op ∈ ops, op.Harmless := by decide
  obtain ⟨haccepted, t', notices, hempty, -⟩ := committed.harmless_accepted
  exact ⟨hops, (haccepted ops hops).trans rfl, congrArg Prod.fst hempty⟩

end System

end RuleChain
