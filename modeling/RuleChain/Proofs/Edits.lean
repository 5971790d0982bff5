import RuleChain.Proofs.WellFormed

/-! # Edits of an open transaction

  An open transaction has changed its table, but only in ways that the current generation does
  not show. `Edits origin t log` says so of a table `t` with a log, against the table `origin`
  at the beginning:

  - a rule carries the mark of the current generation unless the log adds it, and the mark of
    the next one unless the log deletes it;
  - a chain that the log does not add looks as before in the current generation;
  - a chain that the log adds was not there before, and all its rules are new.

  Every change of the log is one step that keeps these facts, and so is undoing the latest one.
  Therefore a rollback, which undoes them all, leads back to a table at rest.
-/

namespace RuleChain

/-! ### The log -/

/-- The order in which a log can hold two changes. No change is logged twice, and a rule is
added before it is deleted. -/
def Change.After (later earlier : Change) : Prop :=
  later ≠ earlier ∧ ∀ id handle, later = .addRule id handle → earlier ≠ .deleteRule id handle

/-- The chain that a change is about. -/
def Change.chain : Change → ChainId
  | .addChain id => id
  | .deleteChain id => id
  | .addRule id _ => id
  | .deleteRule id _ => id

/-- Whether a log has a change of one chain does not depend on its changes of others. -/
theorem Change.mem_cons_iff {change latest : Change} {log : List Change}
    (hne : change.chain ≠ latest.chain) : change ∈ latest :: log ↔ change ∈ log := by
  constructor
  · intro hin
    rcases List.mem_cons.mp hin with rfl | hin
    · exact absurd rfl hne
    · exact hin
  · exact List.mem_cons_of_mem _

/-- A log, the latest change first, whose ids and handles come from the counters of a table. -/
structure Logged (t : Table) (log : List Change) : Prop where
  ordered : log.Pairwise Change.After
  handle_lt : ∀ {id handle}, .addRule id handle ∈ log ∨ .deleteRule id handle ∈ log →
    handle < t.nextHandle
  chain_lt : ∀ {id}, .addChain id ∈ log → id.index < t.nextChain

namespace Logged

variable {t t' : Table} {log : List Change} {change : Change} {id : ChainId} {handle : Nat}

theorem nil (t : Table) : Logged t [] where
  ordered := .nil
  handle_lt h := by rcases h with h | h <;> cases h
  chain_lt h := by cases h

theorem tail (h : Logged t (change :: log)) : Logged t log where
  ordered := h.ordered.of_cons
  handle_lt hlog := h.handle_lt (hlog.imp (List.mem_cons_of_mem _) (List.mem_cons_of_mem _))
  chain_lt hlog := h.chain_lt (List.mem_cons_of_mem _ hlog)

theorem head_notMem (h : Logged t (change :: log)) : change ∉ log := fun hmem =>
  ((List.pairwise_cons.mp h.ordered).1 change hmem).1 rfl

/-- The counters of a table only grow. -/
theorem mono (h : Logged t log) (hhandle : t.nextHandle ≤ t'.nextHandle)
    (hchain : t.nextChain ≤ t'.nextChain) : Logged t' log where
  ordered := h.ordered
  handle_lt hlog := Nat.lt_of_lt_of_le (h.handle_lt hlog) hhandle
  chain_lt hlog := Nat.lt_of_lt_of_le (h.chain_lt hlog) hchain

/-- A change may be logged if it is new, if its handle or id comes from the counters, and if it
does not add a rule that was deleted. -/
theorem cons (h : Logged t log) (hnew : change ∉ log)
    (hadd : ∀ id handle, change = .addRule id handle → .deleteRule id handle ∉ log)
    (hhandle : ∀ id handle, change = .addRule id handle ∨ change = .deleteRule id handle →
      handle < t.nextHandle)
    (hchain : ∀ id, change = .addChain id → id.index < t.nextChain) : Logged t (change :: log) where
  ordered := by
    refine List.pairwise_cons.mpr ⟨?_, h.ordered⟩
    intro earlier hmem
    constructor
    · rintro rfl
      exact hnew hmem
    · rintro id handle heq rfl
      exact hadd id handle heq hmem
  handle_lt {id handle} hlog := by
    rcases hlog with hlog | hlog <;> rcases List.mem_cons.mp hlog with heq | hlog
    · exact hhandle id handle (Or.inl heq.symm)
    · exact h.handle_lt (Or.inl hlog)
    · exact hhandle id handle (Or.inr heq.symm)
    · exact h.handle_lt (Or.inr hlog)
  chain_lt {id} hlog := by
    rcases List.mem_cons.mp hlog with heq | hlog
    · exact hchain id heq.symm
    · exact h.chain_lt hlog

theorem addChain (h : Logged t log) (hnew : .addChain id ∉ log) (hlt : id.index < t.nextChain) :
    Logged t (.addChain id :: log) := by
  refine h.cons hnew ?_ ?_ ?_
  · intro i n heq
    cases heq
  · intro i n heq
    rcases heq with heq | heq <;> cases heq
  · intro i heq
    cases heq
    exact hlt

theorem deleteChain (h : Logged t log) (hnew : .deleteChain id ∉ log) :
    Logged t (.deleteChain id :: log) := by
  refine h.cons hnew ?_ ?_ ?_
  · intro i n heq
    cases heq
  · intro i n heq
    rcases heq with heq | heq <;> cases heq
  · intro i heq
    cases heq

theorem addRule (h : Logged t log) (hnew : .addRule id handle ∉ log)
    (hkept : .deleteRule id handle ∉ log) (hlt : handle < t.nextHandle) :
    Logged t (.addRule id handle :: log) := by
  refine h.cons hnew ?_ ?_ ?_
  · intro i n heq
    cases heq
    exact hkept
  · intro i n heq
    rcases heq with heq | heq
    · cases heq
      exact hlt
    · cases heq
  · intro i heq
    cases heq

theorem deleteRule (h : Logged t log) (hnew : .deleteRule id handle ∉ log)
    (hlt : handle < t.nextHandle) : Logged t (.deleteRule id handle :: log) := by
  refine h.cons hnew ?_ ?_ ?_
  · intro i n heq
    cases heq
  · intro i n heq
    rcases heq with heq | heq
    · cases heq
    · cases heq
      exact hlt
  · intro i heq
    cases heq

end Logged

/-! ### One chain -/

/-- The marks of a chain are those that the log tells. -/
structure Chain.Edited (chain : Chain) (g : Generation) (id : ChainId) (log : List Change) :
    Prop where
  current : ∀ rule ∈ chain.rules, (rule.mask.get g = true ↔ .addRule id rule.handle ∉ log)
  coming : ∀ rule ∈ chain.rules,
    (rule.mask.get g.other = true ↔ .deleteRule id rule.handle ∉ log)
  /-- In a new chain all rules are new. -/
  fresh : .addChain id ∈ log → ∀ rule ∈ chain.rules, .addRule id rule.handle ∈ log

namespace Chain.Edited

variable {chain : Chain} {g : Generation} {id : ChainId} {log log' : List Change} {handle : Nat}

/-- Deletions of chains do not matter, nor does what is logged of other chains. -/
theorem congr (h : chain.Edited g id log)
    (hsame : ∀ change, change ≠ .deleteChain id → change.chain = id →
      (change ∈ log' ↔ change ∈ log)) :
    chain.Edited g id log' where
  current rule hrule := by
    rw [hsame _ (by simp) rfl]
    exact h.current rule hrule
  coming rule hrule := by
    rw [hsame _ (by simp) rfl]
    exact h.coming rule hrule
  fresh hadd rule hrule := by
    rw [hsame _ (by simp) rfl] at hadd ⊢
    exact h.fresh hadd rule hrule

/-- The mark of the next generation is given to or taken from the rules with a handle, and the
log tells which. -/
theorem mark (h : chain.Edited g id log) {b : Bool}
    (hsame : ∀ change, change ≠ .deleteRule id handle → (change ∈ log' ↔ change ∈ log))
    (hmark : b = true ↔ .deleteRule id handle ∉ log') :
    (chain.modifyRule handle fun rule =>
      { rule with mask := rule.mask.set g.other b }).Edited g id log' := by
  constructor
  · -- the mark of the current generation is another one
    intro rule hrule
    obtain ⟨r, hr, rfl⟩ := List.mem_map.mp hrule
    rw [hsame _ (by simp)]
    split
    · rw [PerGeneration.get_other_set]
      exact h.current r hr
    · exact h.current r hr
  · intro rule hrule
    obtain ⟨r, hr, rfl⟩ := List.mem_map.mp hrule
    split
    · next heq =>
      rw [PerGeneration.get_set_self, heq]
      exact hmark
    · next hne =>
      rw [hsame _ (by simp [hne])]
      exact h.coming r hr
  · intro hadd rule hrule
    obtain ⟨r, hr, rfl⟩ := List.mem_map.mp hrule
    rw [hsame _ (by simp)] at hadd ⊢
    split <;> exact h.fresh hadd r hr

/-- A new rule is linked with the mark of the next generation. -/
theorem link (h : chain.Edited g id log) {rule : Rule} (hmask : rule.mask = .only g.other)
    (hadd : .addRule id rule.handle ∉ log) (hdelete : .deleteRule id rule.handle ∉ log)
    (hold : ∀ r ∈ chain.rules, r.handle ≠ rule.handle) (place : Transaction.Place) :
    (chain.mapRules (place.link rule)).Edited g id (.addRule id rule.handle :: log) := by
  -- marks are told rule by rule, so it does not matter at which end the rule is linked
  have hmem : ∀ r, r ∈ place.link rule chain.rules ↔ r = rule ∨ r ∈ chain.rules := by
    intro r
    cases place <;> simp [Transaction.Place.link, or_comm]
  constructor
  · intro r hr
    rcases (hmem r).mp hr with rfl | hr
    · simp [hmask]
    · rw [h.current r hr]
      simp [hold r hr]
  · intro r hr
    rcases (hmem r).mp hr with rfl | hr
    · simp [hmask, hdelete]
    · rw [h.coming r hr]
      simp
  · intro hin r hr
    rcases (hmem r).mp hr with rfl | hr
    · exact List.mem_cons_self
    · simp only [List.mem_cons, reduceCtorEq, false_or] at hin
      exact List.mem_cons_of_mem _ (h.fresh hin r hr)

/-- The rule that was added last is unlinked again. -/
theorem unlink (h : chain.Edited g id (.addRule id handle :: log)) :
    (chain.unlink handle).Edited g id log := by
  have hmem : ∀ r ∈ (chain.unlink handle).rules, r ∈ chain.rules ∧ r.handle ≠ handle := by
    intro r hr
    simpa [Chain.unlink, Chain.mapRules] using hr
  constructor
  · intro r hr
    obtain ⟨hr, hne⟩ := hmem r hr
    rw [h.current r hr]
    simp [hne]
  · intro r hr
    obtain ⟨hr, -⟩ := hmem r hr
    rw [h.coming r hr]
    simp
  · intro hin r hr
    obtain ⟨hr, hne⟩ := hmem r hr
    have := h.fresh (List.mem_cons_of_mem _ hin) r hr
    simpa [hne] using this

/-- In the current generation a new chain has no rule. -/
theorem plain_rules_eq_nil (h : chain.Edited g id log) (hadd : .addChain id ∈ log) :
    (chain.plain g).rules = [] := by
  rw [Chain.plain_rules_eq_nil_iff]
  intro rule hrule
  rw [← Bool.not_eq_true, h.current rule hrule]
  exact fun habsent => habsent (h.fresh hadd rule hrule)

end Chain.Edited

/-! ### All chains -/

/-- The table `t` with the log `log` differs from `origin` by the changes of the log. -/
structure Edits (origin t : Table) (log : List Change) : Prop where
  wellFormed : t.WellFormed
  generation_eq : t.generation = origin.generation
  sequence_eq : t.sequence = origin.sequence
  logged : Logged t log
  chain : ∀ {id chain}, t.chains.get? id = some chain → chain.Edited t.generation id log
  kept : ∀ {id}, .addChain id ∉ log →
    t.chains.plain t.generation id = origin.chains.plain t.generation id
  added : ∀ {id}, .addChain id ∈ log → origin.chains.get? id = none ∧ t.chains.get? id ≠ none

namespace Edits

variable {origin t : Table} {log : List Change} {id : ChainId} {handle : Nat}

theorem refl (h : t.AtRest) : Edits t t [] where
  wellFormed := h.wellFormed
  generation_eq := rfl
  sequence_eq := rfl
  logged := .nil t
  chain hget := by
    constructor
    · intro rule hrule
      simp [h.marks hget rule hrule]
    · intro rule hrule
      simp [h.marks hget rule hrule]
    · intro hlog
      cases hlog
  kept _ := rfl
  added hlog := by cases hlog

/-- In the current generation there are only new chains without rules to be seen. -/
theorem plain_extends (h : Edits origin t log) :
    (t.chains.plain origin.generation).Extends (origin.chains.plain origin.generation) := by
  rw [← h.generation_eq]
  constructor
  · intro id chain hchain
    by_cases hadd : .addChain id ∈ log
    · rw [ChainMap.plain_eq_none_iff.mpr (h.added hadd).1] at hchain
      cases hchain
    · rw [h.kept hadd, hchain]
  · -- what is there and was not there before is new, and so are its rules
    intro id chain hnone hsome
    by_cases hadd : .addChain id ∈ log
    · obtain ⟨c, hget, rfl⟩ := Option.map_eq_some_iff.mp hsome
      exact (h.chain hget).plain_rules_eq_nil hadd
    · rw [h.kept hadd, hnone] at hsome
      cases hsome

/-- What the current generation shows stays sound. -/
theorem sound (h : Edits origin t log) (horigin : origin.AtRest) :
    (t.chains.plain t.generation).Sound := by
  rw [h.generation_eq]
  exact horigin.sound.extend h.plain_extends

/-- Without changes the table shows what it showed at the beginning. -/
theorem plain_eq (h : Edits origin t []) :
    t.chains.plain t.generation = origin.chains.plain origin.generation := by
  funext id
  rw [h.kept List.not_mem_nil, h.generation_eq]

theorem atRest (h : Edits origin t []) (horigin : origin.AtRest) : t.AtRest where
  wellFormed := h.wellFormed
  marks hget rule hrule := by
    rw [GenMask.eq_all_iff rule.mask t.generation, (h.chain hget).current rule hrule,
      (h.chain hget).coming rule hrule]
    exact ⟨List.not_mem_nil, List.not_mem_nil⟩
  sound := h.sound horigin

/-- A change of one chain, if it cannot be seen in the current generation and the log follows
it. -/
theorem modifyChain (h : Edits origin t log) {f : Chain → Chain} {log' : List Change} {next : Nat}
    (hwf : Table.WellFormed { t.modifyChain id f with nextHandle := next })
    (hlogged : Logged { t.modifyChain id f with nextHandle := next } log')
    (hother : ∀ change, change.chain ≠ id → (change ∈ log' ↔ change ∈ log))
    (hadd : .addChain id ∈ log' ↔ .addChain id ∈ log)
    (hchain : ∀ c, t.chains.get? id = some c → (f c).Edited t.generation id log' ∧
      (f c).plain t.generation = c.plain t.generation) :
    Edits origin { t.modifyChain id f with nextHandle := next } log' := by
  -- the log adds the same chains as before, so the same chains are kept
  have hadds : ∀ i, .addChain i ∈ log' ↔ .addChain i ∈ log := by
    intro i
    by_cases heq : i = id
    · exact heq ▸ hadd
    · exact hother _ heq
  constructor
  · exact hwf
  · exact h.generation_eq
  · exact h.sequence_eq
  · exact hlogged
  · intro i chain hget
    rcases ChainMap.get?_modify_cases hget with ⟨rfl, c, hc, rfl⟩ | ⟨hne, hc⟩
    · exact (hchain c hc).1
    · exact (h.chain hc).congr fun change _ heq => hother change (heq ▸ hne)
  · intro i hlog
    have hsame : (t.chains.modify id f).plain t.generation = t.chains.plain t.generation :=
      ChainMap.plain_modify_of_same fun c hc => (hchain c hc).2
    exact (congrFun hsame i).trans (h.kept fun hin => hlog ((hadds i).mpr hin))
  · -- a chain that is changed does not get lost
    intro i hlog
    obtain ⟨hnone, hsome⟩ := h.added ((hadds i).mp hlog)
    refine ⟨hnone, ?_⟩
    simp only [Table.modifyChain, ChainMap.get?_modify]
    split
    · simpa using hsome
    · exact hsome

/-! ### One change -/

/-- Deletions of chains can be logged, or taken from the log, without a change of the table. -/
theorem relog (h : Edits origin t log) (id : ChainId) {log' : List Change} (hlogged : Logged t log')
    (hsame : ∀ change, change ≠ .deleteChain id → (change ∈ log' ↔ change ∈ log)) :
    Edits origin t log' where
  wellFormed := h.wellFormed
  generation_eq := h.generation_eq
  sequence_eq := h.sequence_eq
  logged := hlogged
  chain {i} _ hget := by
    refine (h.chain hget).congr ?_
    intro change hne heq
    by_cases hid : change = .deleteChain id
    · subst hid
      exact absurd (congrArg Change.deleteChain heq) hne
    · exact hsame change hid
  kept hlog := h.kept fun hin => hlog ((hsame _ (by simp)).mpr hin)
  added hlog := h.added ((hsame _ (by simp)).mp hlog)

theorem mark (h : Edits origin t log) {log' : List Change} {b : Bool}
    (hlogged : Logged t log')
    (hsame : ∀ change, change ≠ .deleteRule id handle → (change ∈ log' ↔ change ∈ log))
    (hmark : b = true ↔ .deleteRule id handle ∉ log') :
    Edits origin (t.modifyChain id (·.modifyRule handle fun rule =>
      { rule with mask := rule.mask.set t.generation.other b })) log' := by
  apply h.modifyChain (f := (·.modifyRule handle fun rule =>
      { rule with mask := rule.mask.set t.generation.other b }))
  · refine h.wellFormed.modifyChain_of_sublist (fun _ => rfl) (fun _ => rfl) ?_
    intro c
    have hsame : ((c.modifyRule handle fun rule =>
        { rule with mask := rule.mask.set t.generation.other b }).rules.map (·.handle)) =
          c.rules.map (·.handle) := Chain.handles_modifyRule fun _ => rfl
    exact hsame ▸ List.Sublist.refl _
  · exact hlogged.mono (Nat.le_refl _) (Nat.le_refl _)
  · intro change hne
    refine hsame change ?_
    rintro rfl
    exact hne rfl
  · exact hsame _ (by simp)
  · intro c hc
    refine ⟨(h.chain hc).mark hsame hmark, ?_⟩
    exact Chain.plain_modifyRule_of_same (fun _ => rfl) fun r => r.mask.get_other_set _ b

/-- A rule with a new handle is linked. -/
theorem link (h : Edits origin t log) (exprs : List Expr) (place : Transaction.Place) :
    Edits origin { t.modifyChain id (·.mapRules (place.link
      ⟨t.nextHandle, exprs, .only t.generation.other⟩)) with nextHandle := t.nextHandle + 1 }
      (.addRule id t.nextHandle :: log) := by
  -- the counter is ahead of every handle, in the log as well as in the chain
  have hfresh : .addRule id t.nextHandle ∉ log ∧ .deleteRule id t.nextHandle ∉ log :=
    ⟨fun hin => Nat.lt_irrefl _ (h.logged.handle_lt (Or.inl hin)),
      fun hin => Nat.lt_irrefl _ (h.logged.handle_lt (Or.inr hin))⟩
  apply h.modifyChain
  · refine h.wellFormed.modifyChain (fun _ => rfl) (fun _ => rfl) ?_ (Nat.le_succ _)
    intro c hc
    have hlt := h.wellFormed.handle_lt hc
    have hnodup := h.wellFormed.handles_nodup hc
    have hnew : t.nextHandle ∉ c.rules.map (·.handle) := by
      intro hmem
      obtain ⟨r, hr, heq⟩ := List.mem_map.mp hmem
      have hbelow := hlt r hr
      omega
    cases place with
    | front =>
      refine ⟨List.nodup_cons.mpr ⟨hnew, hnodup⟩, ?_⟩
      intro rule hrule
      rcases List.mem_cons.mp hrule with rfl | hrule
      · exact Nat.lt_succ_self _
      · exact Nat.lt_succ_of_lt (hlt rule hrule)
    | back =>
      constructor
      · simp only [Chain.mapRules, Transaction.Place.link, List.map_append]
        refine List.nodup_append.mpr ⟨hnodup, by simp, ?_⟩
        rintro a ha b hb rfl
        obtain rfl : a = t.nextHandle := List.mem_singleton.mp hb
        exact hnew ha
      · intro rule hrule
        rcases List.mem_append.mp hrule with hrule | hrule
        · exact Nat.lt_succ_of_lt (hlt rule hrule)
        · rw [List.mem_singleton.mp hrule]
          exact Nat.lt_succ_self _
  · have hlogged : Logged { t with nextHandle := t.nextHandle + 1 } log :=
      h.logged.mono (Nat.le_succ _) (Nat.le_refl _)
    exact (hlogged.addRule hfresh.1 hfresh.2 (Nat.lt_succ_self _)).mono (Nat.le_refl _)
      (Nat.le_refl _)
  · exact fun change hne => Change.mem_cons_iff hne
  · simp
  · intro c hc
    constructor
    · refine (h.chain hc).link rfl hfresh.1 hfresh.2 ?_ place
      intro r hr heq
      have hbelow := h.wellFormed.handle_lt hc r hr
      rw [heq] at hbelow
      exact Nat.lt_irrefl _ hbelow
    · rw [Chain.plain_link, if_neg]
      simp [Rule.isActive]

/-- A chain with a free name is added. -/
theorem addChain (h : Edits origin t log) {name : String} (base : Option BaseChain)
    (hfree : t.chains.idOf? name = none) :
    Edits origin { t with
      chains := t.chains.insert ⟨⟨t.nextChain⟩, name, [], base⟩, nextChain := t.nextChain + 1 }
      (.addChain ⟨t.nextChain⟩ :: log) := by
  have hget : ∀ i, (t.chains.insert ⟨⟨t.nextChain⟩, name, [], base⟩).get? i =
      if i = ⟨t.nextChain⟩ then some ⟨⟨t.nextChain⟩, name, [], base⟩ else t.chains.get? i :=
    ChainMap.get?_insert h.wellFormed.slots_le
  have hnew : .addChain ⟨t.nextChain⟩ ∉ log := fun hin =>
    Nat.lt_irrefl _ (h.logged.chain_lt hin)
  -- the log says the same as before about the chains that were there
  have hothers : ∀ {i : ChainId}, i ≠ ⟨t.nextChain⟩ → ∀ change : Change, change.chain = i →
      (change ∈ Change.addChain ⟨t.nextChain⟩ :: log ↔ change ∈ log) := by
    intro i hne change heq
    exact Change.mem_cons_iff (heq ▸ hne)
  constructor
  · exact h.wellFormed.addChain rfl hfree rfl
  · exact h.generation_eq
  · exact h.sequence_eq
  · have hlogged : Logged { t with nextChain := t.nextChain + 1 } log :=
      h.logged.mono (Nat.le_refl _) (Nat.le_succ _)
    exact (hlogged.addChain hnew (Nat.lt_succ_self _)).mono (Nat.le_refl _) (Nat.le_refl _)
  · intro i chain hi
    rw [hget] at hi
    split at hi
    · cases hi
      constructor <;> simp
    · next hne => exact (h.chain hi).congr fun change _ heq => hothers hne change heq
  · intro i hlog
    have hne : i ≠ ⟨t.nextChain⟩ := by
      rintro rfl
      exact hlog List.mem_cons_self
    simp only [ChainMap.plain, hget, if_neg hne]
    exact h.kept fun hin => hlog (List.mem_cons_of_mem _ hin)
  · intro i hlog
    by_cases heq : i = ⟨t.nextChain⟩
    · subst heq
      refine ⟨?_, by simp [hget]⟩
      -- no chain was there either, since the current generation shows the same as before
      have hkept := h.kept hnew
      rw [ChainMap.plain_eq_none_iff.mpr h.wellFormed.get?_next] at hkept
      exact ChainMap.plain_eq_none_iff.mp hkept.symm
    · rw [hget, if_neg heq]
      exact h.added ((hothers heq _ rfl).mp hlog)

/-! ### Rollback -/

theorem unlink (h : Edits origin t (.addRule id handle :: log)) :
    Edits origin (t.modifyChain id (·.unlink handle)) log := by
  apply h.modifyChain (f := (·.unlink handle))
  · refine h.wellFormed.modifyChain_of_sublist (fun _ => rfl) (fun _ => rfl) ?_
    intro c
    exact List.filter_sublist.map _
  · exact h.logged.tail.mono (Nat.le_refl _) (Nat.le_refl _)
  · exact fun change hne => (Change.mem_cons_iff hne).symm
  · simp
  · intro c hc
    -- the log adds the rule, so the current generation never showed it
    refine ⟨(h.chain hc).unlink, Chain.plain_unlink ?_⟩
    intro r hr heq
    rw [← Bool.not_eq_true, (h.chain hc).current r hr, heq]
    exact fun habsent => habsent List.mem_cons_self

theorem erase (h : Edits origin t (.addChain id :: log)) :
    Edits origin { t with chains := t.chains.erase id } log where
  wellFormed := h.wellFormed.erase id
  generation_eq := h.generation_eq
  sequence_eq := h.sequence_eq
  logged := h.logged.tail.mono (Nat.le_refl _) (Nat.le_refl _)
  chain {i chain} hget := by
    rw [ChainMap.get?_erase] at hget
    split at hget
    · cases hget
    · next hne =>
      refine (h.chain hget).congr ?_
      intro change _ heq
      exact (Change.mem_cons_iff (heq ▸ hne)).symm
  kept {i} hlog := by
    rw [ChainMap.plain_erase]
    split
    · next heq =>
      subst heq
      exact (ChainMap.plain_eq_none_iff.mpr (h.added List.mem_cons_self).1).symm
    · next hne => exact h.kept (by simp [hne, hlog])
  added {i} hlog := by
    -- the chain was added only once, so the log before does not add it
    have hne : i ≠ id := by
      rintro rfl
      exact h.logged.head_notMem hlog
    rw [ChainMap.get?_erase, if_neg hne]
    exact h.added (List.mem_cons_of_mem _ hlog)

/-- Undoing the latest change leaves the changes before it. -/
theorem undo {change : Change} (h : Edits origin t (change :: log)) :
    Edits origin (Transaction.undo t.generation.other t change) log := by
  cases change with
  | addChain id => exact h.erase
  | deleteChain id =>
    exact h.relog id h.logged.tail fun change hne => by simp [hne]
  | addRule id handle => exact h.unlink
  | deleteRule id handle =>
    refine h.mark h.logged.tail (fun change hne => ?_) ?_
    · simp [hne]
    · simpa using h.logged.head_notMem

theorem generation_undo (next : Generation) (t : Table) (change : Change) :
    (Transaction.undo next t change).generation = t.generation := by
  cases change <;> rfl

/-- Undoing all changes leaves none. -/
theorem rollback (h : Edits origin t log) :
    Edits origin (log.foldl (Transaction.undo t.generation.other) t) [] := by
  -- on the log: undoing the latest change leaves a table with the log before it
  generalize hnext : t.generation.other = next
  induction log generalizing t with
  | nil => exact h
  | cons change rest ih =>
    subst hnext
    exact ih h.undo (by rw [generation_undo])

end Edits

end RuleChain
