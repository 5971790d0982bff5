import RuleChain.Proofs.Draft
import RuleChain.Proofs.System

/-! # Transactions refine edits of a plain ruleset

  The table never copies its ruleset. Nevertheless a transaction answers as if its operations were
  made on a private copy, and a commit leaves the table with the settled copy, in both
  generations. A transaction that is undone leaves the ruleset as it was, but for the counters.
-/

namespace RuleChain

/-- A private copy of what the table shows. -/
def Table.draft (t : Table) : Draft := ⟨t.plain t.generation, []⟩

/-- A transaction begins with the ruleset that the table shows. -/
theorem Table.AtRest.draft_begin {t : Table} (h : t.AtRest) : t.begin.draft = t.draft := by
  unfold Transaction.draft Table.draft Table.plain Table.begin
  rw [h.plain_eq t.generation.other t.generation]

namespace Finalization

/-- When a commit is done, both generations show the settled draft. -/
theorem Midway.plain_done {origin : Table} {tx : Transaction} {f : Finalization}
    (h : Midway tx f) (hopen : tx.Open origin) (hvalid : tx.validate = .ok ())
    (hdone : f.IsDone) (g : Generation) : f.table.plain g = tx.draft.settle := by
  obtain ⟨-, hplain⟩ := h.atRest hopen hvalid hdone
  unfold Table.plain
  rw [hplain g, h.nextChain_eq, h.nextHandle_eq]
  rfl

end Finalization

namespace Transaction.Open

variable {origin : Table} {tx : Transaction}

/-- A commit that is not refused has made all its writes. -/
theorem commit_midway (h : tx.Open origin) {n : Nat} {t : Table} {notices : List Notice}
    (hcommit : tx.commit = (.ok n, t, notices)) :
    tx.validate = .ok () ∧ t.sequence = n ∧
      ∃ f : Finalization, Finalization.Midway tx f ∧ f.IsDone ∧ f.table = t := by
  unfold commit at hcommit
  split at hcommit
  · cases hcommit
  · next p hpublish =>
    obtain ⟨hvalid, rfl⟩ := publish?_eq_ok_iff.mp hpublish
    cases hcommit
    have hmidway := (Finalization.Midway.start h).steps h.edits.logged.ordered
      (Finalization.steps_finish tx.publish)
    exact ⟨hvalid, rfl, _, hmidway, ⟨rfl, rfl⟩, rfl⟩

/-- A commit that is not refused counts, flips, and shows the settled draft. -/
theorem commit_ok (h : tx.Open origin) {n : Nat} {t : Table} {notices : List Notice}
    (hcommit : tx.commit = (.ok n, t, notices)) :
    n = origin.sequence + 1 ∧ t.sequence = n ∧ t.generation = origin.generation.other ∧
      (∀ g, t.plain g = tx.draft.settle) ∧ t.WellFormed := by
  obtain ⟨hvalid, rfl, f, hmidway, hdone, rfl⟩ := h.commit_midway hcommit
  have hsequence := hmidway.sequence_eq.trans (congrArg (· + 1) h.edits.sequence_eq)
  have hgeneration := hmidway.generation_eq.trans (congrArg Generation.other hmidway.old_eq)
  rw [h.edits.generation_eq] at hgeneration
  -- all writes are done, so what the writes keep is now what both generations show
  exact ⟨hsequence, rfl, hgeneration, hmidway.plain_done h hvalid hdone, hmidway.wellFormed⟩

/-- A commit that is not refused leaves a table at rest. -/
theorem commit_atRest (h : tx.Open origin) {n : Nat} {t : Table} {notices : List Notice}
    (hcommit : tx.commit = (.ok n, t, notices)) : t.AtRest := by
  obtain ⟨hvalid, -, f, hmidway, hdone, rfl⟩ := h.commit_midway hcommit
  exact (hmidway.atRest h hvalid hdone).1

/-- A commit that is refused undoes the transaction. -/
theorem commit_error {e : EngineError} {t : Table} {notices : List Notice}
    (hcommit : tx.commit = (.error e, t, notices)) : t = tx.rollback := by
  unfold commit at hcommit
  split at hcommit
  · cases hcommit
    rfl
  · cases hcommit

/-- A transaction that is undone leaves the ruleset from before, but for the counters. -/
theorem plain_rollback (h : tx.Open origin) (horigin : origin.AtRest) (g : Generation) :
    tx.rollback.plain g =
      ⟨origin.chains.plain origin.generation, tx.table.nextChain, tx.table.nextHandle⟩ := by
  obtain ⟨hrest, -, -, hplain⟩ := h.rollback horigin
  have hnextChain : tx.rollback.nextChain = tx.table.nextChain := by rw [tx.rollback_eq]
  have hnextHandle : tx.rollback.nextHandle = tx.table.nextHandle := by rw [tx.rollback_eq]
  unfold Table.plain
  rw [hrest.plain_eq g origin.generation, hplain, hnextChain, hnextHandle]

end Transaction.Open

namespace System

/-- The operations of a transaction answer as those on a private copy of the ruleset. After a
commit both generations show the settled copy, chains are found by its names, and the commit is
counted; this is also how a commit with readers ends. After an abort, or a commit that was
refused, both generations show what was shown before. -/
theorem Reachable.refines_draft {t : Table} {guards : List Generation}
    (h : Reachable ⟨.rest t, guards⟩) (ops : List Transaction.Operation) :
    let tx := (t.begin.applyAll ops).2
    let draft := (t.draft.applyAll ops).2
    (t.begin.applyAll ops).1 = (t.draft.applyAll ops).1 ∧
    (∀ n t' notices, tx.commit = (.ok n, t', notices) →
      n = t.sequence + 1 ∧ t'.sequence = n ∧ t'.generation = t.generation.other ∧
      (∀ g, t'.plain g = draft.settle) ∧
      ∀ name, (t'.chains.lookup? name).map (·.id) = draft.settle.named? name) ∧
    (∀ f guards', Reachable ⟨.finalizing t tx f, guards'⟩ → f.IsDone →
      f.table.sequence = t.sequence + 1 ∧ ∀ g, f.table.plain g = draft.settle) ∧
    (∀ e t' notices, tx.commit = (.error e, t', notices) → t' = tx.rollback) ∧
    tx.rollback.sequence = t.sequence ∧ tx.rollback.generation = t.generation ∧
    ∀ g, tx.rollback.plain g =
      ⟨t.chains.plain t.generation, draft.ruleset.nextChain, draft.ruleset.nextHandle⟩ := by
  intro tx draft
  obtain ⟨hrest, -⟩ := h.inv.good
  have hbegin := Transaction.Open.begin hrest
  have hopen : tx.Open t := hbegin.applyAll ops
  have hagree := hbegin.applyAll_draft ops
  rw [hrest.draft_begin] at hagree
  have hdraft : tx.draft = draft := (congrArg Prod.snd hagree).symm
  refine ⟨(congrArg Prod.fst hagree).symm, ?_, ?_, ?_, ?_⟩
  · intro n t' notices hcommit
    obtain ⟨hn, hsequence, hgeneration, hplain, hwf⟩ := hopen.commit_ok hcommit
    rw [hdraft] at hplain
    refine ⟨hn, hsequence, hgeneration, hplain, ?_⟩
    intro name
    -- the table finds by its index of names what the draft finds by a search
    rw [hwf.lookup?_map_id, ← hwf.named?_eq name t'.generation, hplain]
  · intro f guards' hreach hdone
    -- how the writes were interleaved with readers does not matter to the invariant
    obtain ⟨-, -, hvalid, hmidway, -⟩ := hreach.inv.good
    refine ⟨hmidway.sequence_eq.trans (congrArg (· + 1) hopen.edits.sequence_eq), ?_⟩
    intro g
    rw [hmidway.plain_done hopen hvalid hdone, hdraft]
  · intro e t' notices hcommit
    exact Transaction.Open.commit_error hcommit
  · obtain ⟨-, hgeneration, hsequence, -⟩ := hopen.rollback hrest
    refine ⟨hsequence, hgeneration, ?_⟩
    intro g
    rw [hopen.plain_rollback hrest, ← hdraft]
    rfl

/-- A rule replaces the only one, which was a jump, and the target is deleted. Its name stays
taken until the commit. -/
theorem Reachable.refines_draft_replaced : ∃ t : Table, Reachable ⟨.rest t, []⟩ ∧
    let ops : List Transaction.Operation :=
      [.placeRule ⟨0⟩ [.ofVerdict (.final .drop)] .front, .deleteRule ⟨0⟩ 1, .deleteChain ⟨1⟩,
        .addChain "web" none, .deleteChain ⟨1⟩, .chainId "web"]
    (t.begin.applyAll ops).1 = [.ok (.handle 2), .ok .done, .ok .done,
      .error (.duplicateChain "web"), .error (.unknownChainId ⟨1⟩), .ok (.found none)] ∧
    ∃ t' notices, (t.begin.applyAll ops).2.commit = (.ok 2, t', notices) ∧ ∀ g,
      (t'.plain g).chains ⟨0⟩ = some ⟨"input", some .accept, [(2, [.ofVerdict (.final .drop)])]⟩ ∧
      (t'.plain g).chains ⟨1⟩ = none := by
  have committed := (((create "filter" .initial 1).step .begin).applyAll
    [.addChain "input" (some .accept), .addChain "web" none,
      .placeRule ⟨0⟩ [.ofVerdict (.jump ⟨1⟩)] .back]).commit
  refine ⟨_, committed, ?_⟩
  intro ops
  obtain ⟨hanswers, hcommit, -⟩ := committed.refines_draft ops
  obtain ⟨-, -, -, hplain, -⟩ := hcommit 2 _ _ rfl
  refine ⟨hanswers.trans rfl, _, _, rfl, ?_⟩
  intro g
  rw [hplain g]
  exact ⟨rfl, rfl⟩

end System

end RuleChain
