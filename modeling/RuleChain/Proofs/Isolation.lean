import RuleChain.Proofs.System

/-! # Isolation of readers

  What a guard sees is what its generation shows. The guards of a transaction's time see one of
  two rulesets, and nothing in between:

  - a guard on the old generation sees the ruleset from before the transaction;
  - a guard on the new generation sees the ruleset that the transaction has prepared.

  No step of the writer or of a reader changes what a guard sees, or a mark of its generation.
-/

namespace RuleChain

/-- The commit of `tx`, begun at `origin`, has flipped and is not done. -/
def Moment.Commits (origin : Table) (tx : Transaction) : Moment → Prop
  | .waiting origin' tx' _ => origin' = origin ∧ tx' = tx
  | .finalizing origin' tx' _ => origin' = origin ∧ tx' = tx
  | _ => False

namespace System

variable {s s' : System} {g : Generation}

theorem Inv.wellFormed (h : s.Inv) : s.table.WellFormed := by
  obtain ⟨m, guards⟩ := s
  have hgood := h.good
  cases m with
  | rest t => exact hgood.1.wellFormed
  | editing origin tx => exact hgood.2.1.edits.wellFormed
  | waiting origin tx p => exact hgood.2.2.2.1.wellFormed
  | finalizing origin tx f => exact hgood.2.2.2.1.wellFormed

/-- Only while the writer waits is there a guard on the old generation. -/
theorem Inv.waits (h : s.Inv) (hg : g ∈ s.guards) (hne : g ≠ s.table.generation) :
    ∃ origin tx p, s.moment = .waiting origin tx p := by
  obtain ⟨m, guards⟩ := s
  have hgood := h.good
  cases m with
  | rest t => exact absurd (hgood.2 g hg) hne
  | editing origin tx => exact absurd (hgood.2.2 g hg) hne
  | waiting origin tx p => exact ⟨origin, tx, p, rfl⟩
  | finalizing origin tx f =>
    obtain ⟨-, -, -, hmidway, hold⟩ := hgood
    rcases Generation.eq_or_eq_other f.old g with rfl | rfl
    · exact absurd hg hold
    · exact absurd hmidway.generation_eq.symm hne

/-! ### During a commit -/

variable {origin : Table} {tx : Transaction}

/-- A guard on the old generation sees the chains from before, and empty ones at most besides. -/
theorem Inv.sees_old (h : s.Inv) (hcommit : s.moment.Commits origin tx)
    (hg : origin.generation ∈ s.guards) :
    (s.sees origin.generation).Extends (origin.chains.plain origin.generation) := by
  obtain ⟨m, guards⟩ := s
  have hgood := h.good
  cases m with
  | rest t => cases hcommit
  | editing origin' tx' => cases hcommit
  | waiting origin' tx' p =>
    obtain ⟨rfl, rfl⟩ := hcommit
    obtain ⟨-, hopen, -, hmidway, -, hold⟩ := hgood
    have heq : p.old = origin'.generation := hmidway.old_eq.trans hopen.edits.generation_eq
    have hextends := hopen.edits.plain_extends
    rw [heq] at hold
    rw [← hold] at hextends
    exact hextends
  | finalizing origin' tx' f =>
    -- the writer has waited for the last guard on the old generation
    obtain ⟨rfl, rfl⟩ := hcommit
    obtain ⟨-, hopen, -, hmidway, hold⟩ := hgood
    have heq : f.old = origin'.generation := hmidway.old_eq.trans hopen.edits.generation_eq
    rw [heq] at hold
    exact absurd hg hold

/-- The writes of a commit have come as far as the table that stands. -/
theorem Inv.midway (h : s.Inv) (hcommit : s.moment.Commits origin tx) :
    origin.AtRest ∧ tx.Open origin ∧
      ∃ f : Finalization, Finalization.Midway tx f ∧ f.table = s.table := by
  obtain ⟨m, guards⟩ := s
  have hgood := h.good
  cases m with
  | rest t => cases hcommit
  | editing origin' tx' => cases hcommit
  | waiting origin' tx' p =>
    obtain ⟨rfl, rfl⟩ := hcommit
    obtain ⟨horigin, hopen, -, hmidway, -, -⟩ := hgood
    exact ⟨horigin, hopen, p.finalization, hmidway, rfl⟩
  | finalizing origin' tx' f =>
    obtain ⟨rfl, rfl⟩ := hcommit
    obtain ⟨horigin, hopen, -, hmidway, -⟩ := hgood
    exact ⟨horigin, hopen, f, hmidway, rfl⟩

/-- A guard on the new generation sees the chains that stay, and empty ones at most besides. -/
theorem Inv.sees_new (h : s.Inv) (hcommit : s.moment.Commits origin tx) :
    (s.sees origin.generation.other).Extends tx.live := by
  obtain ⟨-, hopen, f, hmidway, htable⟩ := h.midway hcommit
  have heq : f.old = origin.generation := hmidway.old_eq.trans hopen.edits.generation_eq
  rw [sees, ← htable, ← heq]
  exact hmidway.extends_live hopen

/-! ### From step to step -/

/-- A guard sees the same rules when a transaction is given up. -/
theorem Inv.rules_rollback {guards : List Generation} (h : Inv ⟨.editing origin tx, guards⟩)
    (hg : g ∈ guards) :
    (tx.rollback.chains.plain g).rules = (tx.table.chains.plain g).rules := by
  obtain ⟨horigin, hopen, hcurrent⟩ := h.good
  obtain rfl : g = origin.generation := (hcurrent g hg).trans hopen.edits.generation_eq
  obtain ⟨-, -, -, hsame⟩ := hopen.rollback horigin
  rw [hsame, hopen.edits.plain_extends.rules_eq]

/-- No step adds a rule to what a guard sees, or takes one from it. -/
theorem Inv.rules_eq (h : s.Inv) (hstep : s.Step s') (hg : g ∈ s.guards) :
    (s'.sees g).rules = (s.sees g).rules := by
  have h' := h.step hstep
  cases hstep with
  | begin => rfl
  | @operate origin tx tx' guards op answer applied =>
    -- before and after, the current generation shows the rules from the beginning
    obtain ⟨-, hopen, hcurrent⟩ := h.good
    obtain ⟨-, hopen', -⟩ := h'.good
    obtain rfl : g = origin.generation := (hcurrent g hg).trans hopen.edits.generation_eq
    have hbefore := hopen.edits.plain_extends.rules_eq
    have hafter := hopen'.edits.plain_extends.rules_eq
    exact hafter.trans hbefore.symm
  | abort => exact h.rules_rollback hg
  | reject refused => exact h.rules_rollback hg
  | flip accepted =>
    obtain ⟨-, rfl⟩ := Transaction.publish?_eq_ok_iff.mp accepted
    rfl
  | drain quiet => rfl
  | @write origin tx guards f f' step =>
    obtain ⟨-, hopen, -, hmidway, hold⟩ := h.good
    obtain ⟨-, -, -, hmidway', -⟩ := h'.good
    -- before and after, the new generation shows the chains that stay
    rcases Generation.eq_or_eq_other f.old g with rfl | rfl
    · exact absurd hg hold
    · have hbefore := (hmidway.extends_live hopen).rules_eq
      have hafter := (hmidway'.extends_live hopen).rules_eq
      rw [hmidway'.old_eq, ← hmidway.old_eq] at hafter
      exact hafter.trans hbefore.symm
  | done isDone => rfl
  -- readers write no rule
  | enter =>
    unfold sees table
    rw [Moment.table_withTable]
    rfl
  | leave held =>
    unfold sees table
    rw [Moment.table_withTable]
    rfl
  | record id worker length =>
    unfold sees table
    rw [Moment.table_withTable, (Table.Read.record id worker length).plain_eq g]

/-- No step changes a mark of a generation that a guard is pinned to. -/
theorem Inv.mark_eq (h : s.Inv) (hstep : s.Step s') (hg : g ∈ s.guards) {id : ChainId}
    {chain chain' : Chain} (hget : s.table.chains.get? id = some chain)
    (hget' : s'.table.chains.get? id = some chain') {rule rule' : Rule}
    (hrule : rule ∈ chain.rules) (hrule' : rule' ∈ chain'.rules)
    (hhandle : rule'.handle = rule.handle) : rule'.mask.get g = rule.mask.get g := by
  -- a mark is what the generation shows, and that does not change
  have hmark := h.wellFormed.mark_iff hget hrule g
  have hmark' := (h.step hstep).wellFormed.mark_iff hget' hrule' g
  have hsame := h.rules_eq hstep hg
  unfold sees at hsame
  rw [Bool.eq_iff_iff, hmark', hmark, hsame, hhandle]

/-! ### Isolation -/

/-- Guards are on the current generation unless the writer waits for them. During a commit a
guard sees the chains from before or the chains that the transaction has prepared, with nothing
but empty chains besides. The targets of all rules that it sees are there. Whatever is done
next, it goes on seeing the same rules, and no mark of its generation is changed. -/
theorem Reachable.isolation (h : s.Reachable) :
    (∀ g ∈ s.guards, g ≠ s.table.generation → ∃ origin tx p, s.moment = .waiting origin tx p) ∧
    (∀ origin tx, s.moment.Commits origin tx →
      (origin.generation ∈ s.guards →
        (s.sees origin.generation).Extends (origin.chains.plain origin.generation)) ∧
      (s.sees origin.generation.other).Extends tx.live) ∧
    (∀ g, g = s.table.generation ∨ g ∈ s.guards → ∀ id target kind,
      (target, kind) ∈ (s.sees g).edges id → ∃ dest, s.table.chains.get? target = some dest) ∧
    ∀ s', s.Step s' → ∀ g,
      (g ∈ s.guards → (s'.sees g).rules = (s.sees g).rules) ∧
      ∀ id chain chain', s.table.chains.get? id = some chain →
        s'.table.chains.get? id = some chain' →
        ∀ rule ∈ chain.rules, ∀ rule' ∈ chain'.rules, rule'.handle = rule.handle →
          rule'.mask.get g ≠ rule.mask.get g → g ∉ s.guards := by
  have hinv := h.inv
  refine ⟨fun g hg hne => hinv.waits hg hne, fun origin tx hcommit => ⟨?_, ?_⟩, ?_, ?_⟩
  · exact hinv.sees_old hcommit
  · exact hinv.sees_new hcommit
  · intro g hg id target kind hmem
    obtain ⟨dest, hdest, -⟩ := (hinv.sound hg).target hmem
    obtain ⟨chain, hget, -⟩ := Option.map_eq_some_iff.mp hdest
    exact ⟨chain, hget⟩
  · intro s' hstep g
    refine ⟨hinv.rules_eq hstep, ?_⟩
    intro id chain chain' hget hget' rule hrule rule' hrule' hhandle hne hg
    exact hne (hinv.mark_eq hstep hg hget hget' hrule hrule' hhandle)

/-- A guard on each generation, while a commit that adds a rule waits: one sees the rule, the
other one does not, whatever is done next. -/
theorem Reachable.isolation_waiting : ∃ s : System, s.Reachable ∧ s.guards = [.one, .zero] ∧
    (s.sees .zero).rules ⟨0⟩ = [] ∧
    (s.sees .one).rules ⟨0⟩ = [(1, [.ofVerdict (.final .drop)])] ∧
    ∀ s', s.Step s' → (s'.sees .zero).rules = (s.sees .zero).rules ∧
      (s'.sees .one).rules = (s.sees .one).rules := by
  have opened := (((create "filter" .initial 1).step .enter).step .begin).applyAll
    [.addChain "input" (some .accept), .placeRule ⟨0⟩ [.ofVerdict (.final .drop)] .back]
  have flipped := (opened.step (.flip rfl)).step .enter
  refine ⟨_, flipped, rfl, rfl, rfl, ?_⟩
  intro s' hstep
  obtain ⟨-, -, -, hsteps⟩ := flipped.isolation
  exact ⟨(hsteps s' hstep .zero).1 (by decide), (hsteps s' hstep .one).1 (by decide)⟩

end System

end RuleChain
