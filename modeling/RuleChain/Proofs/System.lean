import RuleChain.Proofs.Finalization

/-! # A table with its writer and its readers

  One writer at a time works on a table, while any number of readers come and go. A system is the
  moment that the writer has reached, together with the generations that guards are pinned to,
  and `System.Step` is what one of them may do next:

  - the writer begins a transaction, makes an operation, gives the transaction up, flips, goes on
    when no reader is left in the old generation, writes once, or is done;
  - a reader is pinned to the current generation, counts a packet, or leaves.

  `System.Inv` is what holds at every reachable moment. In the moments of a commit the table at
  the beginning and the transaction at the flip are remembered, to be compared with.
-/

namespace RuleChain

/-! ### What readers write -/

/-- What a reader does to a table: the number of readers changes, or a packet is counted. -/
inductive Table.Read (t : Table) : Table → Prop where
  | readers (readers : PerGeneration Nat) : t.Read { t with readers }
  | record (id : ChainId) (worker : Nat) (length : UInt64) :
    t.Read (t.modifyChain id (·.record worker length))

namespace Table.Read

variable {t t' : Table}

theorem wellFormed (h : t.Read t') (hwf : t.WellFormed) : t'.WellFormed := by
  cases h with
  | readers r => exact hwf.congr rfl rfl rfl
  | record id worker length =>
    exact hwf.modifyChain_of_sublist (fun _ => rfl) (fun _ => rfl) fun _ => List.Sublist.refl _

theorem generation_eq (h : t.Read t') : t'.generation = t.generation := by
  cases h <;> rfl

theorem sequence_eq (h : t.Read t') : t'.sequence = t.sequence := by
  cases h <;> rfl

theorem nextChain_eq (h : t.Read t') : t'.nextChain = t.nextChain := by
  cases h <;> rfl

theorem nextHandle_eq (h : t.Read t') : t'.nextHandle = t.nextHandle := by
  cases h <;> rfl

theorem plain_eq (h : t.Read t') (g : Generation) : t'.chains.plain g = t.chains.plain g := by
  cases h with
  | readers r => rfl
  | record id worker length =>
    exact ChainMap.plain_modify_of_same fun c _ => Chain.plain_record worker length

/-- Every chain keeps its rules. -/
theorem get? (h : t.Read t') {id : ChainId} {chain : Chain}
    (hget : t'.chains.get? id = some chain) :
    ∃ c, t.chains.get? id = some c ∧ chain.rules = c.rules := by
  cases h with
  | readers r => exact ⟨chain, hget, rfl⟩
  | record i worker length =>
    rcases ChainMap.get?_modify_cases hget with ⟨rfl, c, hc, rfl⟩ | ⟨hne, hc⟩
    · exact ⟨c, hc, rfl⟩
    · exact ⟨chain, hc, rfl⟩

theorem atRest (h : t.Read t') (hrest : t.AtRest) : t'.AtRest where
  wellFormed := h.wellFormed hrest.wellFormed
  marks hget rule hrule := by
    obtain ⟨c, hc, hrules⟩ := h.get? hget
    exact hrest.marks hc rule (hrules ▸ hrule)
  sound := by
    rw [h.generation_eq, h.plain_eq]
    exact hrest.sound

theorem logged (h : t.Read t') {log : List Change} (hlog : Logged t log) : Logged t' log := by
  cases h <;> exact hlog.mono (Nat.le_refl _) (Nat.le_refl _)

theorem edits (h : t.Read t') {origin : Table} {log : List Change} (he : Edits origin t log) :
    Edits origin t' log where
  wellFormed := h.wellFormed he.wellFormed
  generation_eq := h.generation_eq.trans he.generation_eq
  sequence_eq := h.sequence_eq.trans he.sequence_eq
  logged := h.logged he.logged
  chain hget := by
    obtain ⟨c, hc, hrules⟩ := h.get? hget
    have hedited := he.chain hc
    rw [h.generation_eq]
    exact ⟨hrules ▸ hedited.current, hrules ▸ hedited.coming, hrules ▸ hedited.fresh⟩
  kept hlog := by
    rw [h.generation_eq, h.plain_eq]
    exact he.kept hlog
  added hlog := by
    refine ⟨(he.added hlog).1, fun hnone => (he.added hlog).2 ?_⟩
    rw [← ChainMap.plain_eq_none_iff, h.plain_eq t.generation] at hnone
    exact ChainMap.plain_eq_none_iff.mp hnone

theorem isOpen {origin : Table} {tx : Transaction} (h : tx.table.Read t') (ho : tx.Open origin) :
    Transaction.Open origin { tx with table := t' } where
  edits := h.edits ho.edits
  next_eq := by rw [ho.next_eq, h.generation_eq]
  deleted_iff := ho.deleted_iff
  deleted_rules hin := by
    rw [h.plain_eq]
    exact ho.deleted_rules hin

theorem midway {tx : Transaction} {f : Finalization} (h : f.table.Read t')
    (hm : Finalization.Midway tx f) : Finalization.Midway tx { f with table := t' } where
  wellFormed := h.wellFormed hm.wellFormed
  old_eq := hm.old_eq
  generation_eq := h.generation_eq.trans hm.generation_eq
  sequence_eq := h.sequence_eq.trans hm.sequence_eq
  nextChain_eq := h.nextChain_eq.trans hm.nextChain_eq
  nextHandle_eq := h.nextHandle_eq.trans hm.nextHandle_eq
  todo := hm.todo
  marked hget := by
    obtain ⟨c, hc, hrules⟩ := h.get? hget
    have hmarked := hm.marked hc
    exact ⟨hrules ▸ hmarked.new, hrules ▸ hmarked.old⟩
  plain_eq id := by
    rw [h.plain_eq]
    exact hm.plain_eq id
  swept hget rule hrule hlog := by
    obtain ⟨c, hc, hrules⟩ := h.get? hget
    exact hm.swept hc rule (hrules ▸ hrule) hlog

end Table.Read

/-! ### Systems -/

/-- How far the writer has come. -/
inductive Moment where
  | rest (t : Table)
  /-- A transaction is open. -/
  | editing (origin : Table) (tx : Transaction)
  /-- The new generation is current, and readers may be left in the old one. -/
  | waiting (origin : Table) (tx : Transaction) (p : Publication)
  | finalizing (origin : Table) (tx : Transaction) (f : Finalization)

namespace Moment

/-- The table as it stands. -/
def table : Moment → Table
  | .rest t => t
  | .editing _ tx => tx.table
  | .waiting _ _ p => p.table
  | .finalizing _ _ f => f.table

def withTable (t : Table) : Moment → Moment
  | .rest _ => .rest t
  | .editing origin tx => .editing origin { tx with table := t }
  | .waiting origin tx p => .waiting origin tx { p with table := t }
  | .finalizing origin tx f => .finalizing origin tx { f with table := t }

@[simp] theorem table_withTable (m : Moment) (t : Table) : (m.withTable t).table = t := by
  cases m <;> rfl

@[simp] theorem withTable_self (m : Moment) : m.withTable m.table = m := by
  cases m <;> rfl

@[simp] theorem withTable_withTable (m : Moment) (t t' : Table) :
    (m.withTable t).withTable t' = m.withTable t' := by
  cases m <;> rfl

end Moment

/-- A table with its writer and the guards that readers hold. -/
structure System where
  moment : Moment
  /-- The generation that each guard is pinned to. -/
  guards : List Generation

namespace System

/-- A new table. -/
def create (name : String) (ns : Namespace) (statsShards : Nat) : System :=
  ⟨.rest (.create name ns statsShards), []⟩

def table (s : System) : Table := s.moment.table

/-- What a guard on a generation sees. -/
def sees (s : System) (g : Generation) : PlainMap := s.table.chains.plain g

/-- One step of the writer or of a reader. -/
inductive Step : System → System → Prop where
  | begin {t : Table} {guards : List Generation} :
    Step ⟨.rest t, guards⟩ ⟨.editing t t.begin, guards⟩
  | operate {origin : Table} {tx tx' : Transaction} {guards : List Generation}
    {op : Transaction.Operation} {answer : Transaction.Answer}
    (applied : tx.apply op = .ok (answer, tx')) :
    Step ⟨.editing origin tx, guards⟩ ⟨.editing origin tx', guards⟩
  /-- The transaction is aborted or dropped. -/
  | abort {origin : Table} {tx : Transaction} {guards : List Generation} :
    Step ⟨.editing origin tx, guards⟩ ⟨.rest tx.rollback, guards⟩
  | reject {origin : Table} {tx : Transaction} {guards : List Generation} {error : EngineError}
    (refused : tx.publish? = .error error) :
    Step ⟨.editing origin tx, guards⟩ ⟨.rest tx.rollback, guards⟩
  | flip {origin : Table} {tx : Transaction} {guards : List Generation} {p : Publication}
    (accepted : tx.publish? = .ok p) :
    Step ⟨.editing origin tx, guards⟩ ⟨.waiting origin tx p, guards⟩
  | drain {origin : Table} {tx : Transaction} {guards : List Generation} {p : Publication}
    (quiet : p.isQuiet = true) :
    Step ⟨.waiting origin tx p, guards⟩ ⟨.finalizing origin tx p.finalization, guards⟩
  | write {origin : Table} {tx : Transaction} {guards : List Generation} {f f' : Finalization}
    (step : f.Step f') :
    Step ⟨.finalizing origin tx f, guards⟩ ⟨.finalizing origin tx f', guards⟩
  | done {origin : Table} {tx : Transaction} {guards : List Generation} {f : Finalization}
    (isDone : f.IsDone) :
    Step ⟨.finalizing origin tx f, guards⟩ ⟨.rest f.table, guards⟩
  | enter {s : System} :
    Step s ⟨s.moment.withTable s.table.enter, s.table.generation :: s.guards⟩
  | leave {s : System} {g : Generation} (held : g ∈ s.guards) :
    Step s ⟨s.moment.withTable (s.table.leave g), s.guards.erase g⟩
  /-- A packet is counted. -/
  | record {s : System} (id : ChainId) (worker : Nat) (length : UInt64) :
    Step s ⟨s.moment.withTable (s.table.modifyChain id (·.record worker length)), s.guards⟩

/-- What a new table can come to. -/
inductive Reachable : System → Prop where
  | create (name : String) (ns : Namespace) (statsShards : Nat) :
    Reachable (create name ns statsShards)
  | step {s s' : System} (h : Reachable s) (step : s.Step s') : Reachable s'

end System

/-! ### The invariant -/

/-- What holds at a moment at which some guards are held. -/
def Moment.Good (guards : List Generation) : Moment → Prop
  | .rest t => t.AtRest ∧ ∀ g ∈ guards, g = t.generation
  | .editing origin tx => origin.AtRest ∧ tx.Open origin ∧ ∀ g ∈ guards, g = tx.table.generation
  | .waiting origin tx p =>
    origin.AtRest ∧ tx.Open origin ∧ tx.validate = .ok () ∧
      Finalization.Midway tx p.finalization ∧ p.log = tx.log.reverse ∧
      p.table.chains.plain p.old = tx.table.chains.plain p.old
  | .finalizing origin tx f =>
    origin.AtRest ∧ tx.Open origin ∧ tx.validate = .ok () ∧ Finalization.Midway tx f ∧
      f.old ∉ guards

/-- The gate counts the guards, and the moment is good. -/
structure System.Inv (s : System) : Prop where
  readers : ∀ g, s.table.readers.get g = s.guards.count g
  good : s.moment.Good s.guards

namespace Moment

variable {m : Moment} {guards guards' : List Generation} {t : Table}

/-- What readers write harms nothing, as long as new guards are pinned to the current
generation. -/
theorem Good.read (h : m.Good guards) (hread : m.table.Read t)
    (hguards : ∀ g ∈ guards', g = m.table.generation ∨ g ∈ guards) :
    (m.withTable t).Good guards' := by
  cases m with
  | rest t₀ =>
    obtain ⟨hrest, hcurrent⟩ := h
    refine ⟨hread.atRest hrest, ?_⟩
    intro g hg
    rw [hread.generation_eq]
    exact (hguards g hg).elim (fun heq => heq) (hcurrent g)
  | editing origin tx =>
    obtain ⟨horigin, hopen, hcurrent⟩ := h
    refine ⟨horigin, hread.isOpen hopen, ?_⟩
    intro g hg
    exact ((hguards g hg).elim (fun heq => heq) (hcurrent g)).trans hread.generation_eq.symm
  | waiting origin tx p =>
    obtain ⟨horigin, hopen, hvalid, hmidway, hlog, hold⟩ := h
    refine ⟨horigin, hopen, hvalid, ?_, hlog, ?_⟩
    · exact Table.Read.midway hread hmidway
    · exact (hread.plain_eq p.old).trans hold
  | finalizing origin tx f =>
    obtain ⟨horigin, hopen, hvalid, hmidway, hold⟩ := h
    refine ⟨horigin, hopen, hvalid, hread.midway hmidway, ?_⟩
    intro hin
    -- a new guard would be on the current generation, which is not the old one
    rcases hguards f.old hin with heq | hin
    · exact Generation.ne_other f.old (heq.trans hmidway.generation_eq)
    · exact hold hin

end Moment

namespace System

variable {s s' : System}

theorem Inv.create (name : String) (ns : Namespace) (statsShards : Nat) :
    (create name ns statsShards).Inv where
  readers g := PerGeneration.get_both 0 g
  good := by
    refine ⟨?_, fun g hg => nomatch hg⟩
    constructor
    · exact .create name ns statsShards
    · intro id chain hget
      cases hget
    · constructor
      · intro id target kind hmem
        cases hmem
      · intro id chain hchain
        cases hchain

/-- The writer's steps keep the invariant. -/
theorem Inv.writer {m m' : Moment} {guards : List Generation} (h : Inv ⟨m, guards⟩)
    (hreaders : m'.table.readers = m.table.readers) (hgood : m'.Good guards) :
    Inv ⟨m', guards⟩ where
  readers g := by
    rw [table, hreaders]
    exact h.readers g
  good := hgood

theorem Inv.rollback {origin : Table} {tx : Transaction} {guards : List Generation}
    (h : Inv ⟨.editing origin tx, guards⟩) : Inv ⟨.rest tx.rollback, guards⟩ := by
  obtain ⟨horigin, hopen, hcurrent⟩ := h.good
  obtain ⟨hrest, hgeneration, -, -⟩ := hopen.rollback horigin
  have hreaders : tx.rollback.readers = tx.table.readers := by rw [tx.rollback_eq]
  refine h.writer hreaders ⟨hrest, ?_⟩
  intro g hg
  rw [hcurrent g hg, hgeneration, hopen.edits.generation_eq]

theorem Inv.step (h : s.Inv) (hstep : s.Step s') : s'.Inv := by
  cases hstep with
  | begin =>
    obtain ⟨hrest, hcurrent⟩ := h.good
    exact h.writer rfl ⟨hrest, .begin hrest, hcurrent⟩
  | operate applied =>
    obtain ⟨horigin, hopen, hcurrent⟩ := h.good
    have hedit := Transaction.edit_of_apply applied
    have hopen' := hopen.edit hedit
    refine h.writer hedit.readers_eq ⟨horigin, hopen', ?_⟩
    intro g hg
    rw [hcurrent g hg, hopen.edits.generation_eq, hopen'.edits.generation_eq]
  | abort => exact h.rollback
  | reject refused => exact h.rollback
  | flip accepted =>
    obtain ⟨horigin, hopen, hcurrent⟩ := h.good
    obtain ⟨hvalid, rfl⟩ := Transaction.publish?_eq_ok_iff.mp accepted
    exact h.writer rfl ⟨horigin, hopen, hvalid, .start hopen, rfl, rfl⟩
  | @drain origin tx guards p quiet =>
    obtain ⟨horigin, hopen, hvalid, hmidway, hlog, hold⟩ := h.good
    refine h.writer rfl ⟨horigin, hopen, hvalid, hmidway, ?_⟩
    -- the gate has counted every guard, so a count of zero means that none is left
    have hcount : guards.count p.old = 0 := (h.readers p.old).symm.trans (of_decide_eq_true quiet)
    exact List.count_eq_zero.mp hcount
  | write step =>
    obtain ⟨horigin, hopen, hvalid, hmidway, hold⟩ := h.good
    have hmidway' := hmidway.step hopen.edits.logged.ordered step
    refine h.writer step.readers_eq ⟨horigin, hopen, hvalid, hmidway', ?_⟩
    rw [hmidway'.old_eq, ← hmidway.old_eq]
    exact hold
  | @done origin tx guards f isDone =>
    obtain ⟨horigin, hopen, hvalid, hmidway, hold⟩ := h.good
    obtain ⟨hrest, -⟩ := hmidway.atRest hopen hvalid isDone
    refine h.writer rfl ⟨hrest, ?_⟩
    intro g hg
    -- there was no guard on the old generation, and the other one is current
    rcases Generation.eq_or_eq_other f.old g with rfl | rfl
    · exact absurd hg hold
    · exact hmidway.generation_eq.symm
  | enter =>
    constructor
    · intro g
      -- the count goes up in the generation that the guard is pinned to, and in no other
      simp only [table, Moment.table_withTable, Table.enter, PerGeneration.get_modify,
        List.count_cons, beq_iff_eq]
      have hcount : s.moment.table.readers.get g = s.guards.count g := h.readers g
      split
      · next heq => subst heq; simp [hcount]
      · next hne => simp [hcount, Ne.symm hne]
    · refine h.good.read (.readers _) ?_
      intro g hg
      exact List.mem_cons.mp hg
  | @leave s g held =>
    constructor
    · intro g'
      simp only [table, Moment.table_withTable, Table.leave, PerGeneration.get_modify,
        List.count_erase, beq_iff_eq]
      have hcount : s.moment.table.readers.get g' = s.guards.count g' := h.readers g'
      split
      · next heq => subst heq; simp [hcount]
      · next hne => simp [hcount, Ne.symm hne]
    · refine h.good.read (.readers _) ?_
      intro g hg
      exact Or.inr (List.mem_of_mem_erase hg)
  | record id worker length =>
    constructor
    · -- counting a packet is no business of the gate
      intro g
      simp only [table, Moment.table_withTable]
      exact h.readers g
    · exact h.good.read (.record id worker length) fun g hg => Or.inr hg

theorem Reachable.inv (h : s.Reachable) : s.Inv := by
  induction h with
  | create name ns statsShards => exact .create name ns statsShards
  | step _ hstep ih => exact ih.step hstep

/-- The generations that a reader is pinned to, or would be pinned to now, are sound. -/
theorem Inv.sound (h : s.Inv) {g : Generation} (hg : g = s.table.generation ∨ g ∈ s.guards) :
    (s.sees g).Sound := by
  obtain ⟨m, guards⟩ := s
  have hgood := h.good
  cases m with
  | rest t =>
    obtain ⟨hrest, hcurrent⟩ := hgood
    obtain rfl : g = t.generation := hg.elim (fun heq => heq) (hcurrent g)
    exact hrest.sound
  | editing origin tx =>
    obtain ⟨horigin, hopen, hcurrent⟩ := hgood
    obtain rfl : g = tx.table.generation := hg.elim (fun heq => heq) (hcurrent g)
    -- the current generation shows the changes only as chains without rules
    exact hopen.edits.sound horigin
  | waiting origin tx p =>
    obtain ⟨horigin, hopen, hvalid, hmidway, -, hold⟩ := hgood
    have heq : p.old = tx.table.generation := hmidway.old_eq
    rcases Generation.eq_or_eq_other p.old g with rfl | rfl
    -- the old generation still shows what it showed while the transaction was open
    · have hsound := hopen.edits.sound horigin
      rw [← heq, ← hold] at hsound
      exact hsound
    · exact hmidway.sound hopen hvalid
  | finalizing origin tx f =>
    obtain ⟨horigin, hopen, hvalid, hmidway, hold⟩ := hgood
    rcases Generation.eq_or_eq_other f.old g with rfl | rfl
    · rcases hg with hg | hg
      · exact absurd (hg.trans hmidway.generation_eq) (Generation.ne_other f.old)
      · exact absurd hg hold
    · exact hmidway.sound hopen hvalid

/-! ### Calls as steps -/

/-- Operations are made one after the other. -/
theorem Reachable.applyAll {origin : Table} {tx : Transaction} {guards : List Generation}
    (h : Reachable ⟨.editing origin tx, guards⟩) (ops : List Transaction.Operation) :
    Reachable ⟨.editing origin (tx.applyAll ops).2, guards⟩ :=
  Transaction.Operation.runAll_keeps
    (fun hreach happly => Reachable.step hreach (.operate happly)) h ops

/-- A commit that nobody reads along with is made of steps. -/
theorem Reachable.commit {origin : Table} {tx : Transaction}
    (h : Reachable ⟨.editing origin tx, []⟩) : Reachable ⟨.rest tx.commit.2.1, []⟩ := by
  unfold Transaction.commit
  cases hpublish : tx.publish? with
  | error error => exact h.step (.reject hpublish)
  | ok p =>
    have hflip := h.step (.flip hpublish)
    -- the gate has counted no guard, so the writer does not wait
    have hquiet : p.isQuiet = true := decide_eq_true (hflip.inv.readers p.old)
    have hfinished : Reachable ⟨.finalizing origin tx ⟨p.finish, p.old, [], []⟩, []⟩ :=
      (Finalization.steps_finish p).keeps (fun hf first => Reachable.step hf (.write first))
        (hflip.step (.drain hquiet))
    exact hfinished.step (.done ⟨rfl, rfl⟩)

end System

end RuleChain
