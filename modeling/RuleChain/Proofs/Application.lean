import RuleChain.Proofs.Admission
import RuleChain.Proofs.Rollback

/-! # Applying a ruleset is all or nothing

  A ruleset that is refused leaves the table as it was, wherever it was refused. One that is
  accepted leaves every chain from before untouched and puts its own chains behind them:
  `Ruleset.Added`. `System.Reachable.apply_all_or_nothing` puts both together with the exact
  conditions under which a ruleset is refused.
-/

namespace RuleChain

/-! ### Active rules -/

/-- Chains that come behind add their rules to the active ones. -/
theorem Table.activeRules_extend {t t' : Table} (h : t.WellFormed) (h' : t'.WellFormed)
    {chains : List PlainChain}
    (hplain : t'.plain t'.generation = (t.plain t.generation).extend chains) :
    t'.activeRules = t.activeRules + (chains.flatMap (·.rules)).length := by
  have hnext : t'.nextChain = t.nextChain + chains.length := congrArg (·.nextChain) hplain
  have hchains : t'.chains.plain t'.generation =
      (t.chains.plain t.generation).append t.nextChain chains := congrArg (·.chains) hplain
  have hold : ∀ i ∈ List.range t.nextChain,
      ((t'.chains.plain t'.generation).rules ⟨i⟩).length =
        ((t.chains.plain t.generation).rules ⟨i⟩).length := by
    intro i hi
    have hlt : i < t.nextChain := List.mem_range.mp hi
    rw [hchains, PlainMap.rules, PlainMap.append, if_pos hlt]
    rfl
  have hnew : (List.range chains.length).map (fun k =>
      ((t'.chains.plain t'.generation).rules ⟨t.nextChain + k⟩).length) =
        chains.map fun chain => chain.rules.length := by
    refine List.ext_getElem (by simp) ?_
    intro k hk hk'
    have hlt : k < chains.length := by simpa using hk'
    rw [List.getElem_map, List.getElem_map, List.getElem_range, hchains, PlainMap.rules,
      PlainMap.append_of_getElem? (List.getElem?_eq_getElem hlt)]
    rfl
  rw [activeRules_eq_sum h.slots_le, activeRules_eq_sum h'.slots_le, hnext, List.range_add,
    List.map_append, List.sum_append, List.map_map, List.map_congr_left hold, List.length_flatMap]
  exact congrArg (fun lengths => _ + lengths.sum) hnew

/-! ### Rulesets that are added -/

namespace Ruleset

/-- The table `t'` is `t` with a ruleset added by the commit with number `n`. -/
structure Added (r : Ruleset) (t : Table) (n : Nat) (t' : Table) : Prop where
  number : n = t.sequence + 1
  sequence_eq : t'.sequence = n
  generation_eq : t'.generation = t.generation.other
  /-- The chains from before are the same, down to the marks of their rules and their statistics. -/
  old : ∀ {id chain}, t.chains.get? id = some chain → t'.chains.get? id = some chain
  /-- The ids and handles of the ruleset were not in use. -/
  fresh : ∀ {id chain}, t.chains.get? id = some chain →
    id.index < t.nextChain ∧ ∀ rule ∈ chain.rules, rule.handle < t.nextHandle
  /-- The chains of the ruleset come behind, under consecutive ids and handles. -/
  shown : ∃ chains, r.CompiledTo t.nextChain t.nextHandle chains ∧
    ∀ g, t'.plain g = (t.plain t.generation).extend chains
  atRest : t'.AtRest
  activeRules_eq : t'.activeRules = t.activeRules + r.ruleCount

section reached

variable {t t' : Table} {r : Ruleset}

theorem fill_readers : (Filling.reached (r.fill t.begin)).tx.table.readers = t.readers :=
  @fill_keeps (fun tx => tx.table.readers = t.readers)
    (fun hreaders happly => (Transaction.edit_of_apply happly).readers_eq.trans hreaders)
    t.begin rfl r

/-- A ruleset that is refused is undone. -/
theorem apply_error {e : EngineError} {notices : List Notice}
    (happly : r.apply t = (.error e, t', notices)) :
    t' = (Filling.reached (r.fill t.begin)).tx.rollback := by
  cases hfill : r.fill t.begin with
  | error refused =>
    unfold apply at happly
    rw [hfill] at happly
    cases happly
    rfl
  | ok filling =>
    have hcommit := commit_of_fill hfill
    rw [happly] at hcommit
    exact Transaction.Open.commit_error hcommit

variable {guards : List Generation} (h : System.Reachable ⟨.rest t, guards⟩)
include h

theorem fill_descends :
    Table.Descends (fun info => info) t (Filling.reached (r.fill t.begin)).tx.table :=
  @fill_keeps (fun tx => Table.Descends (fun info => info) t tx.table)
    (fun hdescends happly => hdescends.write h.inv.good.1.wellFormed
      (Transaction.edit_of_apply happly).write)
    t.begin (.refl _ h.inv.good.1.wellFormed) r

/-- So a ruleset that is refused leaves the table as it was. -/
theorem apply_restores {e : EngineError} {notices : List Notice}
    (happly : r.apply t = (.error e, t', notices)) : t'.Restores t := by
  obtain ⟨hrest, -⟩ := h.inv.good
  have hreach := fill_reachable h r
  obtain ⟨-, hopen, -⟩ := hreach.inv.good
  rw [apply_error happly]
  exact hopen.restores hrest (fill_descends h) fill_readers h.orderly
    (hreach.step .abort).orderly

/-- A ruleset that is accepted is added. -/
theorem apply_added {n : Nat} {notices : List Notice}
    (happly : r.apply t = (.ok n, t', notices)) : r.Added t n t' := by
  obtain ⟨hrest, -⟩ := h.inv.good
  obtain ⟨filling, chains, hfill, -, -, hholds, hwritten, hplain⟩ := apply_ok hrest happly
  have hcompiled := hholds.compiledTo hwritten
  have hcommit := commit_of_fill hfill
  rw [happly] at hcommit
  obtain ⟨hnumber, hsequence, hgeneration, -, -⟩ := hholds.isOpen.commit_ok hcommit
  have hrest' := hholds.isOpen.commit_atRest hcommit
  have hdescends := @apply_keeps (Table.Descends (fun info => info) t)
    (fun hdescends hwrite => hdescends.write hrest.wellFormed hwrite) t (.refl _ hrest.wellFormed) r
  rw [happly] at hdescends
  refine ⟨hnumber, hsequence, hgeneration, ?_, ?_, ⟨chains, hcompiled, hplain⟩, hrest', ?_⟩
  · intro id chain hget
    have hlt : id.index < t.nextChain := hrest.wellFormed.index_lt hget
    have hsame : t'.chains.plain t.generation id = t.chains.plain t.generation id := by
      have hchains : t'.chains.plain t.generation =
          (t.chains.plain t.generation).append t.nextChain chains :=
        congrArg (·.chains) (hplain t.generation)
      rw [hchains, PlainMap.append, if_pos hlt]
    have heq := hrest.get?_eq hrest' t.generation hsame fun hget hget' => by
      simpa using hdescends.base_eq hget hget'
    rw [heq, hget]
  · intro id chain hget
    exact ⟨hrest.wellFormed.index_lt hget, hrest.wellFormed.handle_lt hget⟩
  · rw [Table.activeRules_extend hrest.wellFormed hrest'.wellFormed (hplain _),
      length_rules hcompiled.compiled]
    rfl

end reached

end Ruleset

namespace System

/-- A ruleset is added to a table as a whole or not at all. It is refused if and only if a name is
written twice or already taken, an expression cannot be built with the names of the ruleset itself,
or the chains old and new together are not sound. -/
theorem Reachable.apply_all_or_nothing {t : Table} {guards : List Generation}
    (h : Reachable ⟨.rest t, guards⟩) (r : Ruleset) :
    (∀ e t' notices, r.apply t = (.error e, t', notices) → t'.Restores t) ∧
    (∀ n t' notices, r.apply t = (.ok n, t', notices) → r.Added t n t') ∧
    ((∃ e, (r.apply t).1 = .error e) ↔
      ¬ (r.chains.map (·.name)).Nodup ∨
      (∃ spec ∈ r.chains, (t.chains.lookup? spec.name).isSome) ∨
      (∃ spec ∈ r.chains, ∃ rule ∈ spec.rules, ∃ expr ∈ rule.exprs, ∃ e,
        expr.toExpr (r.idOf? t.nextChain) = .error e) ∨
      ∃ chains, r.CompiledTo t.nextChain t.nextHandle chains ∧
        ¬ ((t.plain t.generation).extend chains).chains.Sound) := by
  obtain ⟨hrest, -⟩ := h.inv.good
  refine ⟨fun e t' notices => r.apply_restores h, fun n t' notices => r.apply_added h, ?_⟩
  have hcases : (∃ e, (r.apply t).1 = .error e) ↔ ¬ ∃ n, (r.apply t).1 = .ok n := by
    cases (r.apply t).1 <;> simp
  rw [hcases, Ruleset.apply_eq_ok_iff hrest]
  constructor
  · intro hrefused
    by_contra hnone
    simp only [not_or, not_exists, not_and, not_not] at hnone
    obtain ⟨hnodup, hfree, hexprs, hsound⟩ := hnone
    have hbuilds : ∀ spec ∈ r.chains, Ruleset.Builds (r.idOf? t.nextChain) spec.rules := by
      intro spec hspec rule hrule expr hexpr
      cases hbuilt : expr.toExpr (r.idOf? t.nextChain) with
      | ok built => exact ⟨built, rfl⟩
      | error e => exact absurd hbuilt (hexprs spec hspec rule hrule expr hexpr e)
    -- the filling goes through, so there are chains for validation to look at
    obtain ⟨filling, hfill⟩ := (Ruleset.exists_fill_iff hrest).mpr ⟨hnodup, hfree, hbuilds⟩
    obtain ⟨chains, hwritten, hholds⟩ := Ruleset.fill_ok hrest hfill
    have hcompiled := hholds.compiledTo hwritten
    exact hrefused ⟨hnodup, hfree, hbuilds, chains, hcompiled, hsound chains hcompiled⟩
  · rintro hcause ⟨hnodup, hfree, hbuilds, chains, hcompiled, hsound⟩
    rcases hcause with htwice | ⟨spec, hspec, htaken⟩ |
      ⟨spec, hspec, rule, hrule, expr, hexpr, e, he⟩ | ⟨chains', hcompiled', hunsound⟩
    · exact htwice hnodup
    · exact hfree spec hspec htaken
    · obtain ⟨built, hbuilt⟩ := hbuilds spec hspec rule hrule expr hexpr
      cases he.symm.trans hbuilt
    · rw [hcompiled'.unique hcompiled] at hunsound
      exact hunsound hsound

/-- A chain that jumps to one that is written later is added behind a chain with a rule. The same
ruleset is refused when it is applied again, for the names that are taken by then. -/
theorem Reachable.apply_all_or_nothing_again :
    let r : Ruleset := ⟨"filter", .initial,
      [⟨"input", some .drop, [⟨none, [.compare 1 .eq "06" none,
        .verdict .jump (some "tcp") none]⟩, ⟨none, [.verdict .accept none none]⟩]⟩,
        ⟨"tcp", none, [⟨some "seven", [.verdict .queue none (some 7)]⟩]⟩]⟩
    ∃ t t' t'' notices notices', Reachable ⟨.rest t, []⟩ ∧ t.activeRules = 1 ∧
      r.apply t = (.ok 2, t', notices) ∧ r.Added t 2 t' ∧ t'.activeRules = 4 ∧
      r.apply t' = (.error (.duplicateChain "input"), t'', notices') ∧ t''.Restores t' := by
  intro r
  have committed := (((create "filter" .initial 1).step .begin).applyAll
    [.addChain "ssh" none, .placeRule ⟨0⟩ [.ofVerdict (.final .accept)] .back]).commit
  obtain ⟨-, hadded, -⟩ := committed.apply_all_or_nothing r
  have again := Ruleset.apply_reachable committed r
  obtain ⟨hrestores, -, -⟩ := again.apply_all_or_nothing r
  exact ⟨_, _, _, _, _, committed, rfl, rfl, hadded _ _ _ rfl, rfl, rfl, hrestores _ _ _ rfl⟩

end System

end RuleChain
