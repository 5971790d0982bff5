import RuleChain.Proofs.Alike

/-! # An open transaction cannot be observed

  While a transaction is open its chains and rules are already in the table, and the rules that it
  deletes have lost a mark. A packet that is evaluated meanwhile does not notice: the journey
  through the table is alike the journey through the table at the beginning, in all chains that were
  there.

  Packets may have been counted since the beginning, so that the statistics need not be those from
  then. What an evaluation does to them is the same.
-/

namespace RuleChain

/-! ### From the beginning of a transaction -/

/-- From the beginning of a transaction until it is given up or its commit is done, its table has a
property that refers to the beginning. -/
def Moment.Since (P : Table → Table → Prop) : Moment → Prop
  | .rest _ => True
  | .editing origin tx => P origin tx.table
  | .waiting origin _ p => P origin p.table
  | .finalizing origin _ f => P origin f.table

/-- At the moments of a commit the property refers to the table that its transaction was begun
at. -/
theorem Moment.Since.of_commits {P : Table → Table → Prop} {m : Moment} (h : m.Since P)
    {origin : Table} {tx : Transaction} (hcommit : m.Commits origin tx) : P origin m.table := by
  cases m with
  | rest t => cases hcommit
  | editing origin' tx' => cases hcommit
  | waiting origin' tx' p =>
    obtain ⟨rfl, -⟩ := hcommit
    exact h
  | finalizing origin' tx' f =>
    obtain ⟨rfl, -⟩ := hcommit
    exact h

namespace System

variable {s : System}

/-- What holds at the beginning of every transaction, and is kept by every write and every read,
holds until the transaction is over. -/
theorem Reachable.since (P : Table → Table → Prop)
    (hbegin : ∀ {t guards}, Reachable ⟨.rest t, guards⟩ → P t t)
    (hwrite : ∀ {origin t t' : Table}, P origin t → t.Write t' → P origin t')
    (hread : ∀ {origin t t' : Table}, P origin t → t.Read t' → P origin t')
    (h : s.Reachable) : s.moment.Since P := by
  -- a reader leaves the writer where it is
  have hreader : ∀ {m : Moment} {t : Table}, m.Since P → m.table.Read t →
      (m.withTable t).Since P := by
    intro m t hm ht
    cases m with
    | rest t => trivial
    | editing origin tx => exact hread hm ht
    | waiting origin tx p => exact hread hm ht
    | finalizing origin tx f => exact hread hm ht
  induction h with
  | create name ns shards => trivial
  | @step s s' hreach hstep ih =>
    cases hstep with
    | begin => exact hbegin hreach
    | operate applied => exact hwrite ih (Transaction.edit_of_apply applied).write
    | flip accepted =>
      obtain ⟨-, rfl⟩ := Transaction.publish?_eq_ok_iff.mp accepted
      exact hwrite ih .flip
    | drain quiet => exact ih
    | write step => exact hwrite ih step.write
    | enter => exact hreader ih (.readers _)
    | leave held => exact hreader ih (.readers _)
    | record id worker length => exact hreader ih (.record id worker length)
    | _ => trivial

/-! ### What readers see -/

variable {origin : Table} {tx : Transaction} {guards : List Generation}

/-- The table has come from the one at the beginning of the transaction. -/
theorem Reachable.descends (h : s.Reachable) :
    s.moment.Since fun origin t => origin.WellFormed ∧ Table.Descends BaseChain.ns origin t := by
  refine h.since _ ?_ ?_ ?_
  · intro t guards hreach
    have hwf := hreach.inv.wellFormed
    exact ⟨hwf, .refl _ hwf⟩
  · rintro origin t t' ⟨hwf, hdescends⟩ hwrite
    exact ⟨hwf, hdescends.write hwf hwrite⟩
  · rintro origin t t' ⟨hwf, hdescends⟩ hread
    exact ⟨hwf, hdescends.read hread fun _ _ => rfl⟩

/-- A journey through the table now is alike the journey at the beginning, in all chains that were
there. -/
theorem Reachable.journey_alike (h : Reachable ⟨.editing origin tx, guards⟩) (ev : Evaluator)
    (packet : Packet) :
    (ev.journey origin packet).Alike (ev.journey tx.table packet) fun id =>
      (origin.chains.plain origin.generation id).isSome := by
  obtain ⟨horigin, hopen, -⟩ := h.inv.good
  obtain ⟨-, hdescends⟩ := h.descends
  have hextends := hopen.edits.plain_extends
  constructor
  · exact hdescends.name_eq
  · rfl
  · rfl
  · intro id hid
    obtain ⟨chain, hchain⟩ := Option.isSome_iff_exists.mp hid
    show tx.table.chains.plain tx.table.generation id = origin.chains.plain origin.generation id
    rw [hopen.edits.generation_eq, hextends.kept hchain, hchain]
  · -- the targets of what is shown were there
    intro id target kind hid hmem
    obtain ⟨dest, hdest, -⟩ := horigin.sound.target hmem
    exact Option.isSome_iff_exists.mpr ⟨dest, hdest⟩
  · exact horigin.wellFormed.id_eq
  · exact hopen.edits.wellFormed.id_eq

/-- While a transaction is open, an evaluation at a chain that was there at the beginning gives the
same result with the same events as it would have given then, and counts the packet as it would
have been counted. The generation, the sequence number, the number of active rules and the rules
that the chains show are those from the beginning. -/
theorem Reachable.unobservable (h : Reachable ⟨.editing origin tx, guards⟩) :
    (∀ (ev : Evaluator) (packet : Packet) (base : ChainId) (chain : Chain),
      origin.chains.get? base = some chain →
      (ev.tryEvaluate tx.table packet base).result = (ev.tryEvaluate origin packet base).result ∧
      (ev.tryEvaluate tx.table packet base).events = (ev.tryEvaluate origin packet base).events ∧
      ∃ counts : Bool,
        (ev.tryEvaluate origin packet base).table =
          (if counts then ev.counted origin packet base else origin) ∧
        (ev.tryEvaluate tx.table packet base).table =
          (if counts then ev.counted tx.table packet base else tx.table)) ∧
    tx.table.generation = origin.generation ∧ tx.table.sequence = origin.sequence ∧
    tx.table.activeRules = origin.activeRules ∧
    ∀ id chain, origin.chains.get? id = some chain →
      ∃ chain', tx.table.chains.get? id = some chain' ∧
        (chain'.visibleRules origin.generation).map Rule.plain =
          (chain.visibleRules origin.generation).map Rule.plain := by
  obtain ⟨horigin, hopen, -⟩ := h.inv.good
  obtain ⟨-, hdescends⟩ := h.descends
  have hextends := hopen.edits.plain_extends
  refine ⟨?_, hopen.edits.generation_eq, hopen.edits.sequence_eq, ?_, ?_⟩
  · intro ev packet base chain hget
    have hbase : (origin.chains.plain origin.generation base).isSome := by
      rw [ChainMap.plain_of_get? hget]
      rfl
    obtain ⟨hresult, hevents, hcounts⟩ :=
      (h.journey_alike ev packet).tryEvaluate hbase hdescends.base_eq
    refine ⟨hresult, hevents, ev.counts origin packet base, ev.table_tryEvaluate .., ?_⟩
    rw [← hcounts]
    exact ev.table_tryEvaluate ..
  · -- chain by chain: what the transaction adds shows no rule yet
    have hle : origin.chains.slots.length ≤ tx.table.nextChain :=
      Nat.le_trans horigin.wellFormed.slots_le hdescends.nextChain_le
    rw [Table.activeRules_eq_sum hdescends.slots_le, Table.activeRules_eq_sum hle,
      hopen.edits.generation_eq, hextends.rules_eq]
  · intro id chain hget
    have hplain := hextends.kept (ChainMap.plain_of_get? hget)
    obtain ⟨chain', hget', hsame⟩ := Option.map_eq_some_iff.mp hplain
    exact ⟨chain', hget', congrArg PlainChain.rules hsame⟩

/-- A rule in front, the only rule deleted and the chain that it leads to emptied: a packet still
takes the two rules from before. -/
theorem Reachable.unobservable_edited : ∃ origin tx, Reachable ⟨.editing origin tx, []⟩ ∧
    tx.table.chains.get? ⟨0⟩ ≠ origin.chains.get? ⟨0⟩ ∧
    (Evaluator.plain.tryEvaluate origin default ⟨0⟩).result = .ok ⟨.drop, 2⟩ ∧
    (Evaluator.plain.tryEvaluate tx.table default ⟨0⟩).result = .ok ⟨.drop, 2⟩ ∧
    tx.table.activeRules = origin.activeRules := by
  have committed := (((create "filter" .initial 1).step .begin).applyAll
    [.addChain "input" (some .accept), .addChain "web" none,
      .placeRule ⟨0⟩ [.ofVerdict (.jump ⟨1⟩)] .back,
      .placeRule ⟨1⟩ [.ofVerdict (.final .drop)] .back]).commit
  have edited := (committed.step .begin).applyAll
    [.placeRule ⟨0⟩ [.ofVerdict (.final .accept)] .front, .deleteRule ⟨0⟩ 1, .flushChain ⟨1⟩,
      .deleteChain ⟨1⟩]
  obtain ⟨hsame, -, -, hactive, -⟩ := edited.unobservable
  obtain ⟨hresult, -⟩ := hsame Evaluator.plain default ⟨0⟩ _ rfl
  exact ⟨_, _, edited, by decide, rfl, hresult.trans rfl, hactive⟩

end System

end RuleChain
