import RuleChain.Proofs.OpenTransaction
import RuleChain.Table.Commit

/-! # Finalization, write by write

  Once no reader is pinned to the old generation, a commit brings the marks of that generation in
  line with one change after the other. Then it sweeps the chains that the changes may have left
  dead rules in, in any order. `Finalization.Step` is one such write, and `Publication.finish`
  makes them all.

  `Finalization.Midway tx f` is what holds between the writes:

  - the mark of the new generation is the one that the transaction has prepared, and the new
    generation shows what it showed before, except for deleted chains, which had no rules;
  - the mark of the old generation is given once the addition of the rule is done, and taken once
    its deletion is done;
  - a deleted rule is still linked only where a sweep is to come.
-/

namespace RuleChain

/-- A commit whose old generation no reader is pinned to. -/
structure Finalization where
  table : Table
  /-- The generation that was current. -/
  old : Generation
  /-- The changes still to be finalized, in the order in which they were made. -/
  todo : List Change
  /-- The chains that dead rules may be linked in. -/
  sweeps : List ChainId

/-- The writes that are to come after a flip. -/
def Publication.finalization (p : Publication) : Finalization where
  table := p.table
  old := p.old
  todo := p.log
  sweeps := p.log.filterMap Change.touched?

theorem Transaction.publish?_eq_ok_iff {tx : Transaction} {p : Publication} :
    tx.publish? = .ok p ↔ tx.validate = .ok () ∧ p = tx.publish := by
  unfold publish?
  cases tx.validate with
  | error e => simp [Except.map]
  | ok u => simp [Except.map, eq_comm]

/-- A commit answers what validation does. -/
theorem Transaction.commit_fst (tx : Transaction) :
    tx.commit.1 = tx.validate.map fun () => tx.publish.finish.sequence := by
  unfold commit publish?
  cases tx.validate <;> rfl

theorem Transaction.exists_commit_iff {tx : Transaction} :
    (∃ n, tx.commit.1 = .ok n) ↔ tx.validate = .ok () := by
  rw [commit_fst]
  cases tx.validate <;> simp [Except.map]

theorem Transaction.commit_eq_error_iff {tx : Transaction} {e : EngineError} :
    tx.commit.1 = .error e ↔ tx.validate = .error e := by
  rw [commit_fst]
  cases tx.validate <;> simp [Except.map]

namespace Finalization

/-- One write. -/
inductive Step : Finalization → Finalization → Prop where
  | finalize {t : Table} {old : Generation} {change : Change} {todo : List Change}
    {sweeps : List ChainId} :
    Step ⟨t, old, change :: todo, sweeps⟩ ⟨change.finalize old t, old, todo, sweeps⟩
  | sweep {t : Table} {old : Generation} {sweeps : List ChainId} {id : ChainId}
    (mem : id ∈ sweeps) :
    Step ⟨t, old, [], sweeps⟩ ⟨t.modifyChain id Chain.unlinkDead, old, [], sweeps.erase id⟩

/-- Some writes, one after the other. -/
inductive Steps : Finalization → Finalization → Prop where
  | refl {f : Finalization} : Steps f f
  | cons {f f' f'' : Finalization} (first : f.Step f') (rest : f'.Steps f'') : Steps f f''

/-- What every write keeps is kept by all of them. -/
theorem Steps.keeps {P : Finalization → Prop}
    (hstep : ∀ {f f' : Finalization}, P f → f.Step f' → P f') {f f' : Finalization}
    (h : f.Steps f') (hf : P f) : P f' := by
  induction h with
  | refl => exact hf
  | cons first _ ih => exact ih (hstep hf first)

theorem Step.readers_eq {f f' : Finalization} (h : f.Step f') :
    f'.table.readers = f.table.readers := by
  cases h with
  | @finalize t old change todo sweeps => cases change <;> rfl
  | sweep => rfl

/-- Nothing is left to do. -/
def IsDone (f : Finalization) : Prop := f.todo = [] ∧ f.sweeps = []

/-! ### The invariant -/

/-- The marks of a chain of which the changes `todo` are still to be finalized. -/
structure Marked (chain : Chain) (old : Generation) (id : ChainId) (log todo : List Change) :
    Prop where
  new : ∀ rule ∈ chain.rules,
    (rule.mask.get old.other = true ↔ .deleteRule id rule.handle ∉ log)
  old : ∀ rule ∈ chain.rules,
    (rule.mask.get old = true ↔ .addRule id rule.handle ∉ todo ∧
      (.deleteRule id rule.handle ∈ log → .deleteRule id rule.handle ∈ todo))

/-- The commit of `tx` has come as far as `f`. -/
structure Midway (tx : Transaction) (f : Finalization) : Prop where
  wellFormed : f.table.WellFormed
  old_eq : f.old = tx.table.generation
  generation_eq : f.table.generation = f.old.other
  sequence_eq : f.table.sequence = tx.table.sequence + 1
  nextChain_eq : f.table.nextChain = tx.table.nextChain
  nextHandle_eq : f.table.nextHandle = tx.table.nextHandle
  todo : f.todo <:+ tx.log.reverse
  marked : ∀ {id chain}, f.table.chains.get? id = some chain →
    Marked chain f.old id tx.log f.todo
  plain_eq : ∀ id, f.table.chains.plain f.old.other id =
    if .deleteChain id ∈ tx.log ∧ .deleteChain id ∉ f.todo then none
    else tx.table.chains.plain f.old.other id
  swept : ∀ {id chain}, f.table.chains.get? id = some chain → ∀ rule ∈ chain.rules,
    .deleteRule id rule.handle ∈ tx.log → id ∈ f.sweeps

/-! ### One chain -/

namespace Marked

variable {chain : Chain} {old : Generation} {id : ChainId} {handle : Nat} {log todo : List Change}

/-- The finalization of a change of another chain, or of the set of chains. -/
theorem skip (h : Marked chain old id log (change :: todo))
    (hadd : ∀ handle, change ≠ .addRule id handle)
    (hdelete : ∀ handle, change ≠ .deleteRule id handle) : Marked chain old id log todo where
  new := h.new
  old rule hrule := by
    rw [h.old rule hrule]
    have h₁ := (hadd rule.handle).symm
    have h₂ := (hdelete rule.handle).symm
    simp [h₁, h₂]

/-- A rule whose addition is finalized is shown in the old generation, too. If it was deleted
as well, the deletion is still to come. -/
theorem activate (h : Marked chain old id log (.addRule id handle :: todo))
    (honce : .addRule id handle ∉ todo)
    (hlater : .deleteRule id handle ∈ log → .deleteRule id handle ∈ todo) :
    Marked (chain.modifyRule handle (·.activate old)) old id log todo := by
  constructor
  · -- the mark of the new generation is left alone
    intro rule hrule
    obtain ⟨r, hr, rfl⟩ := List.mem_map.mp hrule
    split
    · simpa [Rule.activate] using h.new r hr
    · exact h.new r hr
  · intro rule hrule
    obtain ⟨r, hr, rfl⟩ := List.mem_map.mp hrule
    split
    · next heq =>
      subst heq
      simp only [Rule.activate, PerGeneration.get_set_self, true_iff]
      exact ⟨honce, hlater⟩
    · next hne =>
      rw [h.old r hr]
      simp [hne]

/-- A rule whose deletion is finalized is not shown in the old generation any more. -/
theorem deactivate (h : Marked chain old id log (.deleteRule id handle :: todo))
    (honce : .deleteRule id handle ∉ todo) (hlog : .deleteRule id handle ∈ log) :
    Marked (chain.modifyRule handle (·.deactivate old)) old id log todo := by
  constructor
  · intro rule hrule
    obtain ⟨r, hr, rfl⟩ := List.mem_map.mp hrule
    split
    · simpa [Rule.deactivate] using h.new r hr
    · exact h.new r hr
  · intro rule hrule
    obtain ⟨r, hr, rfl⟩ := List.mem_map.mp hrule
    split
    · next heq =>
      subst heq
      simp only [Rule.deactivate, PerGeneration.get_set_self, Bool.false_eq_true, false_iff]
      -- the deletion would have to come up once more
      exact fun hold => honce (hold.2 hlog)
    · next hne =>
      rw [h.old r hr]
      simp [hne]

theorem sublist (h : Marked chain old id log todo) {rules : List Rule}
    (hsub : rules.Sublist chain.rules) : Marked { chain with rules } old id log todo where
  new rule hrule := h.new rule (hsub.subset hrule)
  old rule hrule := h.old rule (hsub.subset hrule)

/-- When all changes are finalized, a rule is dead if it was deleted. -/
theorem isDead_iff (h : Marked chain old id log []) {rule : Rule} (hrule : rule ∈ chain.rules) :
    rule.mask.isDead = true ↔ .deleteRule id rule.handle ∈ log := by
  have hnew := h.new rule hrule
  have hold := h.old rule hrule
  rw [GenMask.isDead_iff rule.mask old, ← Bool.not_eq_true, ← Bool.not_eq_true, hnew, hold]
  simp

end Marked

/-! ### The order of the changes -/

section order

variable {log todo : List Change} {change : Change}

theorem mem_log_of_todo (hsuffix : change :: todo <:+ log.reverse) : change ∈ log :=
  List.mem_reverse.mp (hsuffix.subset List.mem_cons_self)

/-- No change is finalized twice. -/
theorem notMem_todo (hordered : log.Pairwise Change.After)
    (hsuffix : change :: todo <:+ log.reverse) : change ∉ todo := by
  have htodo := (List.pairwise_reverse.mpr hordered).sublist hsuffix.sublist
  intro hmem
  exact ((List.pairwise_cons.mp htodo).1 change hmem).1 rfl

/-- When the addition of a rule comes up, its deletion is still to come. -/
theorem deleteRule_mem_todo (hordered : log.Pairwise Change.After) {id : ChainId} {handle : Nat}
    (hsuffix : .addRule id handle :: todo <:+ log.reverse) (hlog : .deleteRule id handle ∈ log) :
    .deleteRule id handle ∈ todo := by
  obtain ⟨done, hdone⟩ := hsuffix
  have hpairs := List.pairwise_reverse.mpr hordered
  rw [← hdone] at hpairs
  have hmem : .deleteRule id handle ∈ done ++ .addRule id handle :: todo := by
    rw [hdone]
    exact List.mem_reverse.mpr hlog
  rcases List.mem_append.mp hmem with hmem | hmem
  · -- then it was finalized before the addition, against the order of the log
    have hafter := (List.pairwise_append.mp hpairs).2.2 _ hmem _ List.mem_cons_self
    exact absurd rfl (hafter.2 id handle rfl)
  · simpa using hmem

end order

/-! ### One write -/

namespace Midway

variable {tx : Transaction} {f f' : Finalization} {t : Table} {old : Generation}
  {todo todo' : List Change} {sweeps sweeps' : List ChainId} {id : ChainId} {handle : Nat}

/-- A change of one chain that the new generation does not show. -/
theorem modifyChain (h : Midway tx ⟨t, old, todo, sweeps⟩) {f : Chain → Chain}
    (hwf : (t.modifyChain id f).WellFormed) (hsuffix : todo' <:+ tx.log.reverse)
    (hchains : ∀ i, .deleteChain i ∈ todo' ↔ .deleteChain i ∈ todo)
    (hplain : ∀ c, t.chains.get? id = some c → (f c).plain old.other = c.plain old.other)
    (hmarked : ∀ c, t.chains.get? id = some c → Marked (f c) old id tx.log todo')
    (hothers : ∀ i c, i ≠ id → Marked c old i tx.log todo → Marked c old i tx.log todo')
    (hswept : ∀ c, t.chains.get? id = some c → ∀ rule ∈ (f c).rules,
      .deleteRule id rule.handle ∈ tx.log → id ∈ sweeps')
    (hsweeps : ∀ i, i ≠ id → i ∈ sweeps → i ∈ sweeps') :
    Midway tx ⟨t.modifyChain id f, old, todo', sweeps'⟩ where
  wellFormed := hwf
  old_eq := h.old_eq
  generation_eq := h.generation_eq
  sequence_eq := h.sequence_eq
  nextChain_eq := h.nextChain_eq
  nextHandle_eq := h.nextHandle_eq
  todo := hsuffix
  marked {i chain} hget := by
    rcases ChainMap.get?_modify_cases hget with ⟨rfl, c, hc, rfl⟩ | ⟨hne, hc⟩
    · exact hmarked c hc
    · exact hothers i chain hne (h.marked hc)
  plain_eq i := by
    have hsame : (t.chains.modify id f).plain old.other = t.chains.plain old.other :=
      ChainMap.plain_modify_of_same hplain
    simp only [Table.modifyChain, hsame, hchains]
    exact h.plain_eq i
  swept {i chain} hget rule hrule hlog := by
    rcases ChainMap.get?_modify_cases hget with ⟨rfl, c, hc, rfl⟩ | ⟨hne, hc⟩
    · exact hswept c hc rule hrule hlog
    · exact hsweeps i hne (h.swept hc rule hrule hlog)

/-- A change of the marks of one rule in the old generation. -/
theorem modifyRule (h : Midway tx ⟨t, old, change :: todo, sweeps⟩) {b : Bool}
    (hkind : change = .addRule id handle ∨ change = .deleteRule id handle)
    (hmarked : ∀ c, t.chains.get? id = some c → Marked c old id tx.log (change :: todo) →
      Marked (c.modifyRule handle fun rule => { rule with mask := rule.mask.set old b }) old id
        tx.log todo) :
    Midway tx ⟨t.modifyChain id (·.modifyRule handle fun rule =>
      { rule with mask := rule.mask.set old b }), old, todo, sweeps⟩ := by
  have hsame : ∀ c : Chain, (c.modifyRule handle fun rule =>
      { rule with mask := rule.mask.set old b }).rules.map (·.handle) = c.rules.map (·.handle) :=
    fun c => Chain.handles_modifyRule fun _ => rfl
  apply h.modifyChain
  · exact h.wellFormed.modifyChain_of_sublist (fun _ => rfl) (fun _ => rfl)
      fun c => hsame c ▸ List.Sublist.refl _
  · exact (List.suffix_cons _ _).trans h.todo
  · intro i
    rcases hkind with rfl | rfl <;> simp
  · intro c _
    exact Chain.plain_modifyRule_of_same (fun _ => rfl) fun r => r.mask.get_set_other old b
  · intro c hc
    exact hmarked c hc (h.marked hc)
  · -- the marks of the other chains do not wait for this change
    intro i c hne hc
    refine hc.skip ?_ ?_ <;> rintro n rfl <;> rcases hkind with heq | heq <;> cases heq <;>
      exact hne rfl
  · -- the rules are those from before, by their handles
    intro c hc rule hrule hlog
    have hmem : rule.handle ∈ c.rules.map (·.handle) := hsame c ▸ List.mem_map_of_mem hrule
    obtain ⟨r, hr, heq⟩ := List.mem_map.mp hmem
    rw [← heq] at hlog
    exact h.swept hc r hr hlog
  · exact fun _ _ hmem => hmem

/-- A deleted chain leaves the map. -/
theorem erase (h : Midway tx ⟨t, old, .deleteChain id :: todo, sweeps⟩)
    (honce : .deleteChain id ∉ todo) :
    Midway tx ⟨{ t with chains := t.chains.erase id }, old, todo, sweeps⟩ := by
  have hlog := mem_log_of_todo h.todo
  have hget : ∀ {i chain}, (t.chains.erase id).get? i = some chain →
      t.chains.get? i = some chain := by
    intro i chain hi
    rw [ChainMap.get?_erase] at hi
    split at hi
    · cases hi
    · exact hi
  constructor
  · exact h.wellFormed.erase id
  · exact h.old_eq
  · exact h.generation_eq
  · exact h.sequence_eq
  · exact h.nextChain_eq
  · exact h.nextHandle_eq
  · exact (List.suffix_cons _ _).trans h.todo
  · intro i chain hi
    refine (h.marked (hget hi)).skip ?_ ?_ <;> simp
  · -- the new generation loses the chain at the very moment when its change is done
    intro i
    rw [ChainMap.plain_erase]
    split
    · next heq =>
      subst heq
      rw [if_pos ⟨hlog, honce⟩]
    · next hne =>
      refine (h.plain_eq i).trans ?_
      simp [hne]
  · intro i chain hi rule hrule hdelete
    exact h.swept (hget hi) rule hrule hdelete

theorem finalize (h : Midway tx ⟨t, old, change :: todo, sweeps⟩)
    (hordered : tx.log.Pairwise Change.After) :
    Midway tx ⟨change.finalize old t, old, todo, sweeps⟩ := by
  have honce := notMem_todo hordered h.todo
  have hlog := mem_log_of_todo h.todo
  -- only the addition of a chain writes nothing; it merely leaves the list
  cases change with
  | addChain id =>
    refine { h with
      todo := (List.suffix_cons _ _).trans h.todo
      marked := fun hget => ?_
      plain_eq := fun i => ?_ }
    · exact (h.marked hget).skip (by simp) (by simp)
    · refine (h.plain_eq i).trans ?_
      simp
  | deleteChain id => exact h.erase honce
  | addRule id handle =>
    exact h.modifyRule (Or.inl rfl) fun c _ hc =>
      hc.activate honce (deleteRule_mem_todo hordered h.todo)
  | deleteRule id handle =>
    exact h.modifyRule (Or.inr rfl) fun c _ hc => hc.deactivate honce hlog

/-- Dead rules are unlinked. -/
theorem sweep (h : Midway tx ⟨t, old, [], sweeps⟩) :
    Midway tx ⟨t.modifyChain id Chain.unlinkDead, old, [], sweeps.erase id⟩ := by
  apply h.modifyChain
  · exact h.wellFormed.modifyChain_of_sublist (fun _ => rfl) (fun _ => rfl)
      fun c => List.filter_sublist.map _
  · exact h.todo
  · exact fun _ => Iff.rfl
  · exact fun c _ => Chain.plain_unlinkDead
  · exact fun c hc => (h.marked hc).sublist List.filter_sublist
  · exact fun _ _ _ hc => hc
  · intro c hc rule hrule hdelete
    -- the deleted rules of this chain are dead by now, and none of them is left
    obtain ⟨hrule, halive⟩ := List.mem_filter.mp hrule
    rw [((h.marked hc).isDead_iff hrule).mpr hdelete] at halive
    cases halive
  · intro i hne hmem
    exact (List.mem_erase_of_ne hne).mpr hmem

theorem step (h : Midway tx f) (hordered : tx.log.Pairwise Change.After) (hstep : f.Step f') :
    Midway tx f' := by
  cases hstep with
  | finalize => exact h.finalize hordered
  | sweep => exact h.sweep

/-- Any number of writes keeps what one write keeps. -/
theorem steps (h : Midway tx f) (hordered : tx.log.Pairwise Change.After) (hsteps : f.Steps f') :
    Midway tx f' :=
  hsteps.keeps (fun hmidway first => Midway.step hmidway hordered first) h

/-! ### From the flip to the end -/

variable {origin : Table}

theorem start (h : tx.Open origin) : Midway tx tx.publish.finalization := by
  constructor
  · exact h.edits.wellFormed.congr rfl rfl rfl
  · rfl
  · rfl
  · rfl
  · rfl
  · rfl
  · exact List.suffix_refl _
  · -- all changes are still to come, so the marks are those of the open transaction
    intro id chain hget
    have hedited := h.edits.chain hget
    constructor
    · exact hedited.coming
    · intro rule hrule
      refine (hedited.current rule hrule).trans ?_
      simp [Publication.finalization, Transaction.publish]
  · -- no chain has left the map
    intro id
    rw [if_neg]
    · rfl
    · simp [Publication.finalization, Transaction.publish]
  · intro id chain _ rule _ hlog
    exact List.mem_filterMap.mpr ⟨_, List.mem_reverse.mpr hlog, rfl⟩

/-- In the new generation there are only chains to be seen that stay, and deleted chains without
rules. -/
theorem extends_live (h : Midway tx f) (hopen : tx.Open origin) :
    (f.table.chains.plain f.old.other).Extends tx.live := by
  have hnext : tx.next = f.old.other := by rw [hopen.next_eq, h.old_eq]
  constructor
  · intro id chain hlive
    unfold Transaction.live at hlive
    split at hlive
    · cases hlive
    · next hkept =>
      rw [hopen.deleted_iff] at hkept
      rw [h.plain_eq, if_neg fun hgone => hkept hgone.1, ← hnext]
      exact hlive
  · intro id chain hlive hchain
    rw [h.plain_eq] at hchain
    split at hchain
    · cases hchain
    · unfold Transaction.live at hlive
      rw [← hnext] at hchain
      split at hlive
      -- a deleted chain stays until its change comes up, and has no rules
      · next hdeleted =>
        have hempty := hopen.deleted_rules hdeleted
        rw [PlainMap.rules, hchain] at hempty
        exact hempty
      · rw [hchain] at hlive
        cases hlive

/-- What the new generation shows is sound all the time. -/
theorem sound (h : Midway tx f) (hopen : tx.Open origin) (hvalid : tx.validate = .ok ()) :
    (f.table.chains.plain f.old.other).Sound :=
  (Transaction.sound_of_validate hopen.edits.wellFormed.id_eq hvalid).extend
    (h.extends_live hopen)

/-- In the end both generations show what the transaction has prepared. -/
theorem atRest (h : Midway tx f) (hopen : tx.Open origin) (hvalid : tx.validate = .ok ())
    (hdone : f.IsDone) : f.table.AtRest ∧ ∀ g, f.table.chains.plain g = tx.live := by
  obtain ⟨htodo, hsweeps⟩ := hdone
  have hrest : f.table.AtRest := by
    constructor
    · exact h.wellFormed
    · intro id chain hget rule hrule
      -- a deleted rule would still have a sweep to come
      have hkept : .deleteRule id rule.handle ∉ tx.log := by
        intro hlog
        have := h.swept hget rule hrule hlog
        rw [hsweeps] at this
        cases this
      have hmarked := h.marked hget
      rw [GenMask.eq_all_iff rule.mask f.old, hmarked.old rule hrule, hmarked.new rule hrule, htodo]
      exact ⟨⟨List.not_mem_nil, fun hlog => absurd hlog hkept⟩, hkept⟩
    · rw [h.generation_eq]
      exact h.sound hopen hvalid
  refine ⟨hrest, ?_⟩
  intro g
  rw [hrest.plain_eq g f.old.other]
  funext id
  rw [h.plain_eq, htodo, h.old_eq, ← hopen.next_eq, Transaction.live]
  simp [hopen.deleted_iff]

end Midway

/-! ### The whole run -/

variable {f f' f'' : Finalization}

theorem Steps.trans (h : f.Steps f') (h' : f'.Steps f'') : f.Steps f'' := by
  induction h with
  | refl => exact h'
  | cons first _ ih => exact .cons first (ih h')

theorem steps_finalize (t : Table) (old : Generation) (todo : List Change)
    (sweeps : List ChainId) :
    Steps ⟨t, old, todo, sweeps⟩ ⟨todo.foldl (Change.finalize old) t, old, [], sweeps⟩ := by
  -- on the changes, in the order in which the fold takes them
  induction todo generalizing t with
  | nil => exact .refl
  | cons change rest ih => exact .cons .finalize (ih _)

theorem steps_sweep (t : Table) (old : Generation) (sweeps : List ChainId) :
    Steps ⟨t, old, [], sweeps⟩
      ⟨sweeps.foldl (fun t id => t.modifyChain id Chain.unlinkDead) t, old, [], []⟩ := by
  -- the chains may be swept in any order, and here the first one always comes next
  induction sweeps generalizing t with
  | nil => exact .refl
  | cons id rest ih =>
    refine .cons (.sweep List.mem_cons_self) ?_
    rw [List.erase_cons_head]
    exact ih _

/-- A commit without readers makes all writes at once. -/
theorem steps_finish (p : Publication) : p.finalization.Steps ⟨p.finish, p.old, [], []⟩ :=
  (steps_finalize p.table p.old p.log _).trans (steps_sweep _ p.old _)

end Finalization

end RuleChain
