import RuleChain.Proofs.InPlace
import RuleChain.Proofs.Refinement
import RuleChain.Proofs.Representation

/-! # Rollback is exact

  A transaction that is undone leaves its table as it was: not only does it show the same rules,
  but the rules, their marks, the policies and the statistics are the same, chain by chain, and
  chains are found under the same ids and names and in the same order. Only the counters may have
  grown.

  A table at rest is determined by what it shows and by its base chains (`AtRest.get?_eq`). What a
  rollback shows is known, and no write touches a base chain.
-/

namespace RuleChain

namespace Table

variable {t t' : Table}

/-- The table `t'` is `t` again, except that its counters may have grown. -/
structure Restores (t' t : Table) : Prop where
  name_eq : t'.name = t.name
  ns_eq : t'.ns = t.ns
  shards_eq : t'.statsShards = t.statsShards
  generation_eq : t'.generation = t.generation
  sequence_eq : t'.sequence = t.sequence
  readers_eq : t'.readers = t.readers
  get?_eq : ∀ id, t'.chains.get? id = t.chains.get? id
  idOf?_eq : ∀ name, t'.chains.idOf? name = t.chains.idOf? name
  lookup?_eq : ∀ name, t'.chains.lookup? name = t.chains.lookup? name
  toList_eq : t'.chains.toList = t.chains.toList
  size_eq : t'.chains.size = t.chains.size
  activeRules_eq : t'.activeRules = t.activeRules
  nextHandle_le : t.nextHandle ≤ t'.nextHandle
  nextChain_le : t.nextChain ≤ t'.nextChain

/-! ### Tables at rest -/

/-- At rest the rules of a chain are those that it shows, with all marks. -/
theorem AtRest.rules_eq (h : t.AtRest) {id : ChainId} {chain : Chain}
    (hget : t.chains.get? id = some chain) (g : Generation) :
    chain.rules = (chain.plain g).rules.map fun rule => ⟨rule.1, rule.2, .all⟩ := by
  have hmarks := h.marks hget
  have hshown := Chain.visibleRules_of_marks hmarks g
  have hrule : ∀ rule ∈ chain.rules, (⟨rule.plain.1, rule.plain.2, .all⟩ : Rule) = rule := by
    intro rule hrule
    rw [← hmarks rule hrule]
    rfl
  show chain.rules = ((chain.visibleRules g).map Rule.plain).map _
  rw [hshown, List.map_map]
  exact (List.map_congr_left hrule |>.trans (List.map_id _)).symm

/-- Where two tables at rest show the same chain, with the same base, it is the same chain. -/
theorem AtRest.get?_eq (h : t.AtRest) (h' : t'.AtRest) (g : Generation) {id : ChainId}
    (hplain : t'.chains.plain g id = t.chains.plain g id)
    (hbase : ∀ {chain chain'}, t.chains.get? id = some chain →
      t'.chains.get? id = some chain' → chain'.base = chain.base) :
    t'.chains.get? id = t.chains.get? id := by
  have hid : (t'.chains.get? id).map (·.plain g) = (t.chains.get? id).map (·.plain g) := hplain
  cases hget : t.chains.get? id with
  | none =>
    rw [hget] at hid
    exact Option.map_eq_none_iff.mp hid
  | some chain =>
    rw [hget] at hid
    obtain ⟨chain', hget', hsame⟩ := Option.map_eq_some_iff.mp hid
    have hids : chain'.id = chain.id := (h'.wellFormed.id_eq hget').trans
      (h.wellFormed.id_eq hget).symm
    have hnames : chain'.name = chain.name := congrArg PlainChain.name hsame
    have hrules : chain'.rules = chain.rules := by
      rw [h'.rules_eq hget' g, h.rules_eq hget g, hsame]
    have hbases := hbase hget hget'
    rw [hget']
    obtain ⟨i, name, rules, base⟩ := chain
    obtain ⟨i', name', rules', base'⟩ := chain'
    subst hids hnames hrules hbases
    rfl

/-- Tables with the same chains register the same names. -/
theorem WellFormed.idOf?_congr (h : t.WellFormed) (h' : t'.WellFormed)
    (hget : ∀ id, t'.chains.get? id = t.chains.get? id) (name : String) :
    t'.chains.idOf? name = t.chains.idOf? name := by
  refine Option.ext ?_
  intro id
  rw [h'.idOf?_iff, h.idOf?_iff, hget]

/-- Tables with the same chains list them in the same order. -/
theorem WellFormed.toList_congr (h : t.WellFormed) (h' : t'.WellFormed)
    (hget : ∀ id, t'.chains.get? id = t.chains.get? id) :
    t'.chains.toList = t.chains.toList := by
  have hle : t.chains.slots.length ≤ max t.nextChain t'.nextChain :=
    Nat.le_trans h.slots_le (Nat.le_max_left _ _)
  have hle' : t'.chains.slots.length ≤ max t.nextChain t'.nextChain :=
    Nat.le_trans h'.slots_le (Nat.le_max_right _ _)
  rw [ChainMap.toList_eq_filterMap hle, ChainMap.toList_eq_filterMap hle']
  simp only [hget]

end Table

/-! ### Transactions that are undone -/

namespace Transaction

variable {tx : Transaction} {t : Table}

/-- Undoing a transaction restores the table at which it was begun. -/
theorem Open.restores (h : tx.Open t) (hrest : t.AtRest)
    (hdescends : Table.Descends (fun info => info) t tx.table)
    (hreaders : tx.table.readers = t.readers) (horderly : t.Orderly)
    (horderly' : tx.rollback.Orderly) : tx.rollback.Restores t := by
  obtain ⟨hrest', hgeneration, hsequence, hplain⟩ := h.rollback hrest
  have hundone := hdescends.write hrest.wellFormed tx.rollback_write
  have hget : ∀ id, tx.rollback.chains.get? id = t.chains.get? id := by
    intro id
    refine hrest.get?_eq hrest' t.generation (congrFun hplain id) ?_
    intro chain chain' hget hget'
    have hsame := hundone.base_eq hget hget'
    simpa using hsame
  have hidOf := hrest.wellFormed.idOf?_congr hrest'.wellFormed hget
  have htoList := hrest.wellFormed.toList_congr hrest'.wellFormed hget
  constructor
  · exact hundone.name_eq
  · exact hundone.ns_eq
  · exact hundone.shards_eq
  · exact hgeneration
  · exact hsequence
  · exact tx.rollback_write.readers_eq.trans hreaders
  · exact hget
  · exact hidOf
  · intro name
    unfold ChainMap.lookup?
    rw [hidOf]
    exact congrArg _ (funext hget)
  · exact htoList
  · rw [horderly.size_eq hrest.wellFormed, horderly'.size_eq hrest'.wellFormed, htoList]
  · unfold Table.activeRules
    rw [htoList, hgeneration]
  · exact hundone.nextHandle_le
  · exact hundone.nextChain_le

/-- What is told of a transaction that is undone is not counted. -/
theorem record_abortNotices (tx : Transaction) (metrics : Metrics) :
    tx.abortNotices.foldl Notice.record metrics = metrics := by
  unfold abortNotices
  split <;> rfl

/-- What is told of a commit that is refused is not counted. -/
theorem record_commit_error {e : EngineError} {t' : Table} {notices : List Notice}
    (hcommit : tx.commit = (.error e, t', notices)) (metrics : Metrics) :
    notices.foldl Notice.record metrics = metrics := by
  unfold commit at hcommit
  split at hcommit
  · cases hcommit
    exact tx.record_abortNotices metrics
  · cases hcommit

end Transaction

namespace System

/-- Whatever is done in a transaction, an abort or a commit that is refused restores the table at
which it was begun, and counts nothing in the metrics. A single operation that is refused changes
nothing at all. -/
theorem Reachable.rollback_exact {t : Table} {guards : List Generation}
    (h : Reachable ⟨.rest t, guards⟩) (ops : List Transaction.Operation) :
    let tx := (Transaction.InPlace.performAll t.begin ops).2
    tx.rollback.Restores t ∧
    (∀ metrics : Metrics, tx.abortNotices.foldl Notice.record metrics = metrics) ∧
    (∀ e t' notices, tx.commit = (.error e, t', notices) →
      t'.Restores t ∧ ∀ metrics : Metrics, notices.foldl Notice.record metrics = metrics) ∧
    ∀ op e after, (Transaction.InPlace.perform op).run tx = .error e after → after = tx := by
  rw [Transaction.InPlace.performAll_eq]
  intro tx
  obtain ⟨hrest, -⟩ := h.inv.good
  have hopen : tx.Open t := (Transaction.Open.begin hrest).applyAll ops
  have hdescends : Table.Descends (fun info => info) t tx.table :=
    Transaction.applyAll_keeps (fun hd hwrite => hd.write hrest.wellFormed hwrite)
      (.refl _ hrest.wellFormed) ops
  have hreaders : tx.table.readers = t.readers :=
    Transaction.applyAll_keeps (fun heq hwrite => hwrite.readers_eq.trans heq) rfl ops
  have horderly' : tx.rollback.Orderly := (((h.step .begin).applyAll ops).step .abort).orderly
  have hrestores := hopen.restores hrest hdescends hreaders h.orderly horderly'
  refine ⟨hrestores, tx.record_abortNotices, ?_, ?_⟩
  · intro e t' notices hcommit
    obtain rfl := Transaction.Open.commit_error hcommit
    exact ⟨hrestores, Transaction.record_commit_error hcommit⟩
  · intro op e after hrun
    rw [Transaction.InPlace.run_perform] at hrun
    cases happly : tx.apply op with
    | ok done =>
      rw [happly] at hrun
      cases hrun
    | error error =>
      rw [happly] at hrun
      cases hrun
      rfl

/-- The only rule is deleted, a rule that leads back to its own chain is put in front, the chain is
emptied and filled again, and a name is refused. The commit is refused for the base chain that is
a target, and all of this is undone. -/
theorem Reachable.rollback_exact_refused : ∃ t : Table, Reachable ⟨.rest t, []⟩ ∧
    t.activeRules = 1 ∧
    let ops : List Transaction.Operation :=
      [.deleteRule ⟨0⟩ 1, .placeRule ⟨0⟩ [.ofVerdict (.goto ⟨0⟩)] .front, .flushChain ⟨0⟩,
        .addChain "input" none, .addChain "web" (some .drop),
        .placeRule ⟨0⟩ [.ofVerdict (.jump ⟨1⟩)] .back, .placeRule ⟨1⟩ [] .back]
    let tx := (Transaction.InPlace.performAll t.begin ops).2
    tx.log.length = 6 ∧ tx.table.chains.get? ⟨0⟩ ≠ t.chains.get? ⟨0⟩ ∧
    ∃ t' notices, tx.commit = (.error (.jumpToBaseChain "input" 3 "web"), t', notices) ∧
      t'.Restores t := by
  have committed := (((create "filter" .initial 1).step .begin).applyAll
    [.addChain "input" (some .accept), .placeRule ⟨0⟩ [.ofVerdict (.final .drop)] .back]).commit
  refine ⟨_, committed, rfl, ?_⟩
  intro ops tx
  obtain ⟨-, -, hrefused, -⟩ := committed.rollback_exact ops
  obtain ⟨hrestores, -⟩ := hrefused _ _ _ rfl
  exact ⟨rfl, by decide, _, _, rfl, hrestores⟩

end System

end RuleChain
