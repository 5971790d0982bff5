import RuleChain.Proofs.Acceptance
import RuleChain.Proofs.Observation
import RuleChain.Proofs.Refinement

/-! # Edits out of reach

  A commit flips the meaning of the marks in all chains at once, and its writes go through the rule
  lists of the chains that it changes and through the map of all chains. Nevertheless it is only
  felt by the base chains that lead to a chain that it changes:

  - a chain that the log does not mention looks in both generations as it did at the beginning,
    while the transaction is open and at every write of the commit (`Midway.plain_spared`);
  - an evaluation stays among the chains that its base chain leads to, so that a journey before the
    transaction and one after the flip are alike in these chains (`Midway.journey_alike`).
-/

namespace RuleChain

/-! ### Chains that are left alone -/

/-- The transaction has changed nothing in the chain. -/
def Transaction.Spares (tx : Transaction) (id : ChainId) : Prop :=
  ∀ change ∈ tx.log, change.chain ≠ id

variable {origin : Table} {tx : Transaction} {id : ChainId}

/-- A chain that is left alone looks in both generations as at the beginning. -/
theorem Transaction.Open.plain_spared (h : tx.Open origin) (hspares : tx.Spares id)
    (g : Generation) :
    tx.table.chains.plain g id = origin.chains.plain origin.generation id := by
  have hkept := h.edits.kept fun hin => hspares _ hin rfl
  rw [h.edits.generation_eq] at hkept
  rw [← hkept]
  cases hget : tx.table.chains.get? id with
  | none => rw [ChainMap.plain_eq_none_iff.mpr hget, ChainMap.plain_eq_none_iff.mpr hget]
  | some chain =>
    -- no rule of the chain was added or deleted, so all of them carry both marks
    have hedited := h.edits.chain hget
    have hmarks : ∀ rule ∈ chain.rules, rule.mask = .all := by
      intro rule hrule
      rw [GenMask.eq_all_iff rule.mask tx.table.generation, hedited.current rule hrule,
        hedited.coming rule hrule]
      exact ⟨fun hin => hspares _ hin rfl, fun hin => hspares _ hin rfl⟩
    rw [ChainMap.plain_of_get? hget, ChainMap.plain_of_get? hget,
      Chain.plain_eq_of_marks hmarks g origin.generation]

namespace Finalization.Midway

variable {f : Finalization} {base : ChainId}

/-- So it does after the flip, however many writes are made. -/
theorem plain_spared (h : Midway tx f) (hopen : tx.Open origin) (hspares : tx.Spares id) :
    f.table.chains.plain f.table.generation id = origin.chains.plain origin.generation id := by
  have hstays : ¬(.deleteChain id ∈ tx.log ∧ .deleteChain id ∉ f.todo) :=
    fun hgone => hspares _ hgone.1 rfl
  rw [h.generation_eq, h.plain_eq, if_neg hstays]
  exact hopen.plain_spared hspares _

/-! ### Evaluations -/

/-- If the base chain leads to no chain that was changed, the journeys are alike in the chains that
it leads to. -/
theorem journey_alike (h : Midway tx f) (horigin : origin.AtRest) (hopen : tx.Open origin)
    (hname : f.table.name = origin.name)
    (hout : ∀ change ∈ tx.log,
      ¬ (origin.chains.plain origin.generation).edges.LeadsTo base change.chain)
    (ev : Evaluator) (packet : Packet) :
    (ev.journey origin packet).Alike (ev.journey f.table packet)
      ((origin.chains.plain origin.generation).edges.LeadsTo base) := by
  constructor
  · exact hname
  · rfl
  · rfl
  · intro id hleads
    refine h.plain_spared hopen ?_
    rintro change hin rfl
    exact hout change hin hleads
  · intro id target kind hleads hmem
    exact hleads.tail ⟨kind, hmem⟩
  · exact horigin.wellFormed.id_eq
  · exact h.wellFormed.id_eq

/-- So the evaluations at the base chain are the same. -/
theorem tryEvaluate (h : Midway tx f) (horigin : origin.AtRest) (hopen : tx.Open origin)
    (hdescends : Table.Descends BaseChain.ns origin f.table)
    (hout : ∀ change ∈ tx.log,
      ¬ (origin.chains.plain origin.generation).edges.LeadsTo base change.chain)
    (ev : Evaluator) (packet : Packet) :
    (ev.tryEvaluate f.table packet base).result = (ev.tryEvaluate origin packet base).result ∧
      (ev.tryEvaluate f.table packet base).events = (ev.tryEvaluate origin packet base).events := by
  obtain ⟨hresult, hevents, -⟩ := (h.journey_alike horigin hopen hdescends.name_eq hout ev
    packet).tryEvaluate .refl hdescends.base_eq
  exact ⟨hresult, hevents⟩

end Finalization.Midway

namespace System

variable {guards : List Generation}

/-- If no change of a transaction is in a base chain or in a chain that the base chain led to when
the transaction was begun, the base chain gives every packet the same result with the same events as
at the beginning: after the commit, and to every reader that comes from the flip on. -/
theorem Reachable.out_of_reach (h : Reachable ⟨.editing origin tx, guards⟩) {base : ChainId}
    (hout : ∀ change ∈ tx.log,
      ¬ (origin.chains.plain origin.generation).edges.LeadsTo base change.chain) :
    (∀ n t notices, tx.commit = (.ok n, t, notices) → ∀ (ev : Evaluator) (packet : Packet),
      (ev.tryEvaluate t packet base).result = (ev.tryEvaluate origin packet base).result ∧
      (ev.tryEvaluate t packet base).events = (ev.tryEvaluate origin packet base).events) ∧
    ∀ s : System, s.Reachable → s.moment.Commits origin tx → ∀ (ev : Evaluator) (packet : Packet),
      (ev.tryEvaluate s.table packet base).result = (ev.tryEvaluate origin packet base).result ∧
      (ev.tryEvaluate s.table packet base).events =
        (ev.tryEvaluate origin packet base).events := by
  obtain ⟨horigin, hopen, -⟩ := h.inv.good
  constructor
  · intro n t notices hcommit
    obtain ⟨-, hdescends⟩ := h.descends
    obtain ⟨-, -, f, hmidway, -, rfl⟩ := hopen.commit_midway hcommit
    -- the table after the commit has come from the open one by writes of the writer
    have hdescends' := Transaction.commit_keeps
      (fun ht hwrite => Table.Descends.write ht horigin.wellFormed hwrite) hdescends
    rw [hcommit] at hdescends'
    exact hmidway.tryEvaluate horigin hopen hdescends' hout
  · intro s hreach hcommits
    obtain ⟨-, -, f, hmidway, htable⟩ := hreach.inv.midway hcommits
    obtain ⟨-, hdescends⟩ := hreach.descends.of_commits hcommits
    change Table.Descends BaseChain.ns origin s.table at hdescends
    rw [← htable] at hdescends ⊢
    exact hmidway.tryEvaluate horigin hopen hdescends hout

/-- A base chain jumps to a chain. A transaction changes the rules of another base chain, deletes
the chain that this one went to, and adds one. -/
theorem Reachable.out_of_reach_apart : ∃ origin tx, Reachable ⟨.editing origin tx, []⟩ ∧
    (∀ change ∈ tx.log,
      ¬ (origin.chains.plain origin.generation).edges.LeadsTo ⟨0⟩ change.chain) ∧
    (Evaluator.plain.tryEvaluate origin default ⟨0⟩).result = .ok ⟨.drop, 2⟩ ∧
    (Evaluator.plain.tryEvaluate origin default ⟨2⟩).result = .ok ⟨.accept, 1⟩ ∧
    ∃ t notices, tx.commit = (.ok 2, t, notices) ∧
      (Evaluator.plain.tryEvaluate t default ⟨0⟩).result = .ok ⟨.drop, 2⟩ ∧
      (Evaluator.plain.tryEvaluate t default ⟨2⟩).result = .ok ⟨.drop, 1⟩ := by
  have committed := (((create "filter" .initial 1).step .begin).applyAll
    [.addChain "input" (some .accept), .addChain "web" none, .addChain "output" (some .accept),
      .addChain "log" none, .placeRule ⟨0⟩ [.ofVerdict (.jump ⟨1⟩)] .back,
      .placeRule ⟨1⟩ [.ofVerdict (.final .drop)] .back,
      .placeRule ⟨2⟩ [.ofVerdict (.goto ⟨3⟩)] .back]).commit
  have edited := (committed.step .begin).applyAll
    [.flushChain ⟨2⟩, .placeRule ⟨2⟩ [.ofVerdict (.final .drop)] .back, .deleteChain ⟨3⟩,
      .addChain "spare" none]
  -- a chain that jumps to the next one, which has no jumps, leads to no other chain
  have hinside : ∀ {edges : Edges}, edges ⟨0⟩ = [(⟨1⟩, .jump)] → edges ⟨1⟩ = [] →
      ∀ id, edges.LeadsTo ⟨0⟩ id → id.index < 2 := by
    intro edges h₀ h₁ id hleads
    induction hleads with
    | refl => decide
    | @tail id target _ hnames ih =>
      obtain ⟨kind, hmem⟩ := hnames
      obtain ⟨_ | _ | index⟩ := id
      · rw [h₀] at hmem
        cases List.mem_singleton.mp hmem
        decide
      · rw [h₁] at hmem
        cases hmem
      · exact absurd ih (by simp)
  refine ⟨_, _, edited, (and_iff_left_of_imp fun hout => ?_).mpr ?_⟩
  · refine ⟨rfl, rfl, _, _, rfl, ?_, rfl⟩
    exact ((edited.out_of_reach hout).1 2 _ _ rfl Evaluator.plain default).1.trans rfl
  · intro change hin hleads
    refine absurd (hinside rfl rfl _ hleads) ?_
    clear hleads
    revert change
    decide

end System

end RuleChain
