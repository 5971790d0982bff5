import RuleChain.Proofs.Representation

/-! # What the writer is told

  `System.Run` is a system together with its history: the answers that the operations of all its
  transactions gave, and the commits that are done. The history tells more than the table, as a
  table forgets a transaction that was undone. Compared with it,

  - the counters are above every handle and every id that was ever handed out;
  - the number of commits is the sequence number, but for a commit that is under way.

  At rest this completes what is known of the representation of a table.
-/

namespace RuleChain

/-- What the writer is told: the answer of an operation, or that a commit is done. -/
inductive Told where
  | answer (answer : Transaction.Answer)
  | committed
deriving DecidableEq

namespace Told

/-- The rule handle that is handed out. -/
def handle? : Told → Option Nat
  | .answer (.handle handle) => some handle
  | _ => none

/-- The chain id that is handed out. -/
def chain? : Told → Option ChainId
  | .answer (.chain id) => some id
  | _ => none

end Told

namespace System

/-- The steps at which the writer is told something. -/
inductive Tells : System → Told → System → Prop where
  | operate {origin : Table} {tx tx' : Transaction} {guards : List Generation}
    {op : Transaction.Operation} {answer : Transaction.Answer}
    (applied : tx.apply op = .ok (answer, tx')) :
    Tells ⟨.editing origin tx, guards⟩ (.answer answer) ⟨.editing origin tx', guards⟩
  | done {origin : Table} {tx : Transaction} {guards : List Generation} {f : Finalization}
    (isDone : f.IsDone) :
    Tells ⟨.finalizing origin tx f, guards⟩ .committed ⟨.rest f.table, guards⟩

/-- What a new table can come to, with all that the writer was told, the latest first. -/
inductive Run : List Told → System → Prop where
  | create (name : String) (ns : Namespace) (statsShards : Nat) :
    Run [] (create name ns statsShards)
  | told {history : List Told} {s s' : System} {word : Told} (run : Run history s)
    (tells : s.Tells word s') : Run (word :: history) s'
  | silent {history : List Told} {s s' : System} (run : Run history s) (step : s.Step s')
    (quiet : ∀ word, ¬ s.Tells word s') : Run history s'

variable {history : List Told} {s s' : System} {word : Told}

theorem Tells.step (h : s.Tells word s') : s.Step s' := by
  cases h with
  | operate applied => exact .operate applied
  | done isDone => exact .done isDone

theorem Run.reachable (h : Run history s) : s.Reachable := by
  induction h with
  | create name ns shards => exact .create name ns shards
  | told _ tells ih => exact ih.step tells.step
  | silent _ step _ ih => exact ih.step step

/-- Whatever is reachable has a history. -/
theorem Reachable.exists_run (h : s.Reachable) : ∃ history, Run history s := by
  induction h with
  | create name ns shards => exact ⟨[], .create name ns shards⟩
  | @step s s' _ hstep ih =>
    obtain ⟨history, hrun⟩ := ih
    by_cases htold : ∃ word, s.Tells word s'
    · obtain ⟨word, htells⟩ := htold
      exact ⟨word :: history, hrun.told htells⟩
    · exact ⟨history, hrun.silent hstep fun word htells => htold ⟨word, htells⟩⟩

end System

/-! ### Numbers that are handed out -/

namespace Transaction

variable {tx tx' : Transaction} {op : Operation}

/-- A handle that is handed out is the next one, and is used up. -/
theorem handle_of_apply {handle : Nat} (h : tx.apply op = .ok (.handle handle, tx')) :
    handle = tx.table.nextHandle ∧ tx'.table.nextHandle = handle + 1 := by
  cases op with
  | placeRule id exprs place =>
    simp only [apply, Except.map] at h
    split at h
    · cases h
    · next placed hplace =>
      obtain ⟨chain, -, hplace⟩ := exists_of_liveChain_bind hplace
      cases hplace
      cases h
      exact ⟨rfl, rfl⟩
  | chainId name => cases h
  -- no other operation answers with a handle
  | _ =>
    simp only [apply, Except.map] at h
    split at h <;> cases h

/-- An id that is handed out is the next one, and is used up. -/
theorem chain_of_apply {id : ChainId} (h : tx.apply op = .ok (.chain id, tx')) :
    id.index = tx.table.nextChain ∧ tx'.table.nextChain = id.index + 1 := by
  cases op with
  | addChain name policy =>
    simp only [apply, addChain] at h
    split at h
    · cases h
    · cases h
      exact ⟨rfl, rfl⟩
  | chainId name => cases h
  -- no other operation answers with an id
  | _ =>
    simp only [apply, Except.map] at h
    split at h <;> cases h

end Transaction

namespace System

variable {history : List Told} {s s' : System} {word : Told}

/-- The counters only grow. -/
theorem Step.counters_le (hinv : s.Inv) (h : s.Step s') :
    s.table.nextHandle ≤ s'.table.nextHandle ∧ s.table.nextChain ≤ s'.table.nextChain := by
  have hwf := hinv.wellFormed
  have hrefl : Table.Descends BaseChain.ns s.table s.table := .refl _ hwf
  rcases h.write_or_read with hwrite | hread
  · have hafter := hrefl.write hwf hwrite
    exact ⟨hafter.nextHandle_le, hafter.nextChain_le⟩
  · have hafter := hrefl.read hread fun _ _ => rfl
    exact ⟨hafter.nextHandle_le, hafter.nextChain_le⟩

/-- The handles and ids of a history are all different and below the counters. -/
structure Numbered (history : List Told) (t : Table) : Prop where
  handles_nodup : (history.filterMap Told.handle?).Nodup
  handle_lt : ∀ handle ∈ history.filterMap Told.handle?, handle < t.nextHandle
  chains_nodup : (history.filterMap Told.chain?).Nodup
  chain_lt : ∀ id ∈ history.filterMap Told.chain?, id.index < t.nextChain

namespace Numbered

variable {t t' : Table}

theorem mono (h : Numbered history t)
    (hle : t.nextHandle ≤ t'.nextHandle ∧ t.nextChain ≤ t'.nextChain) : Numbered history t' where
  handles_nodup := h.handles_nodup
  handle_lt handle hmem := Nat.lt_of_lt_of_le (h.handle_lt handle hmem) hle.1
  chains_nodup := h.chains_nodup
  chain_lt id hmem := Nat.lt_of_lt_of_le (h.chain_lt id hmem) hle.2

/-- A number that comes from the counters can be handed out. -/
theorem cons (h : Numbered history t)
    (hle : t.nextHandle ≤ t'.nextHandle ∧ t.nextChain ≤ t'.nextChain)
    (hhandle : ∀ handle, word.handle? = some handle →
      handle = t.nextHandle ∧ t'.nextHandle = handle + 1)
    (hchain : ∀ id, word.chain? = some id →
      id.index = t.nextChain ∧ t'.nextChain = id.index + 1) : Numbered (word :: history) t' := by
  have hlater := h.mono hle
  constructor
  · rw [List.filterMap_cons]
    split
    · exact h.handles_nodup
    · next handle heq =>
      obtain ⟨hnext, -⟩ := hhandle handle heq
      refine List.nodup_cons.mpr ⟨?_, h.handles_nodup⟩
      intro hmem
      have hlt := h.handle_lt handle hmem
      omega
  · intro handle hmem
    obtain ⟨w, hw, heq⟩ := List.mem_filterMap.mp hmem
    rcases List.mem_cons.mp hw with rfl | hw
    · obtain ⟨-, hused⟩ := hhandle handle heq
      omega
    · exact hlater.handle_lt handle (List.mem_filterMap.mpr ⟨w, hw, heq⟩)
  · rw [List.filterMap_cons]
    split
    · exact h.chains_nodup
    · next id heq =>
      obtain ⟨hnext, -⟩ := hchain id heq
      refine List.nodup_cons.mpr ⟨?_, h.chains_nodup⟩
      intro hmem
      have hlt := h.chain_lt id hmem
      omega
  · intro id hmem
    obtain ⟨w, hw, heq⟩ := List.mem_filterMap.mp hmem
    rcases List.mem_cons.mp hw with rfl | hw
    · obtain ⟨-, hused⟩ := hchain id heq
      omega
    · exact hlater.chain_lt id (List.mem_filterMap.mpr ⟨w, hw, heq⟩)

theorem told (h : Numbered history s.table) (hinv : s.Inv) (htells : s.Tells word s') :
    Numbered (word :: history) s'.table := by
  refine h.cons (htells.step.counters_le hinv) ?_ ?_
  · intro handle heq
    cases htells with
    | @operate _ _ _ _ _ answer applied =>
      cases answer with
      | handle n =>
        obtain rfl : n = handle := Option.some.inj heq
        exact Transaction.handle_of_apply applied
      | _ => cases heq
    | done isDone => cases heq
  · intro id heq
    cases htells with
    | @operate _ _ _ _ _ answer applied =>
      cases answer with
      | chain i =>
        obtain rfl : i = id := Option.some.inj heq
        exact Transaction.chain_of_apply applied
      | _ => cases heq
    | done isDone => cases heq

end Numbered

theorem Run.numbered (h : Run history s) : Numbered history s.table := by
  induction h with
  | create name ns shards =>
    constructor
    · exact List.nodup_nil
    · intro handle hmem
      cases hmem
    · exact List.nodup_nil
    · intro id hmem
      cases hmem
  | told run tells ih => exact ih.told run.reachable.inv tells
  | silent run step _ ih => exact ih.mono (step.counters_le run.reachable.inv)

end System

/-! ### Counting commits -/

/-- The number of commits that are done; one that is under way does not count yet. -/
def Moment.commits : Moment → Nat
  | .rest t => t.sequence
  | .editing _ tx => tx.table.sequence
  | .waiting origin _ _ => origin.sequence
  | .finalizing origin _ _ => origin.sequence

theorem Moment.commits_withTable {m : Moment} {t : Table} (h : t.sequence = m.table.sequence) :
    (m.withTable t).commits = m.commits := by
  cases m with
  | rest t₀ => exact h
  | editing origin tx => exact h
  | waiting origin tx p => rfl
  | finalizing origin tx f => rfl

namespace System

variable {history : List Told} {s s' : System}

/-- Only when the writer is told of a commit is there one more. -/
theorem Step.commits_eq (hinv : s.Inv) (h : s.Step s') (hquiet : ¬ s.Tells .committed s') :
    s'.moment.commits = s.moment.commits := by
  have hinv' := hinv.step h
  cases h with
  | begin => rfl
  | operate applied =>
    obtain ⟨-, hopen, -⟩ := hinv.good
    obtain ⟨-, hopen', -⟩ := hinv'.good
    exact hopen'.edits.sequence_eq.trans hopen.edits.sequence_eq.symm
  | @abort origin tx guards =>
    show tx.rollback.sequence = tx.table.sequence
    rw [tx.rollback_eq]
  | @reject origin tx guards error refused =>
    show tx.rollback.sequence = tx.table.sequence
    rw [tx.rollback_eq]
  | flip accepted =>
    obtain ⟨-, hopen, -⟩ := hinv.good
    exact hopen.edits.sequence_eq.symm
  | drain quiet => rfl
  | write step => rfl
  | done isDone => exact absurd (.done isDone) hquiet
  | enter => exact Moment.commits_withTable rfl
  | leave held => exact Moment.commits_withTable rfl
  | record id worker length => exact Moment.commits_withTable rfl

theorem Run.count_committed (h : Run history s) :
    history.count .committed = s.moment.commits := by
  induction h with
  | create name ns shards => rfl
  | told run tells ih =>
    have hinv := run.reachable.inv
    cases tells with
    | operate applied =>
      rw [List.count_cons_of_ne (by simp), ih]
      refine ((Step.operate applied).commits_eq hinv ?_).symm
      intro htells
      cases htells
    | done isDone =>
      -- the table has counted the commit at the flip
      obtain ⟨-, hopen, -, hmidway, -⟩ := hinv.good
      rw [List.count_cons_self, ih]
      show _ + 1 = _
      exact (hmidway.sequence_eq.trans (congrArg (· + 1) hopen.edits.sequence_eq)).symm
  | silent run step quiet ih => rw [ih, step.commits_eq run.reachable.inv (quiet .committed)]

/-- Each flip is counted, so the parity of the sequence number tells the current generation. -/
theorem Reachable.index_eq (h : s.Reachable) :
    s.table.generation.index = s.table.sequence % 2 := by
  induction h with
  | create name ns shards => rfl
  | @step s s' hreach hstep ih =>
    rcases hstep.write_or_read with hwrite | hread
    · generalize s'.table = t' at hwrite
      cases hwrite with
      | flip =>
        have hother : s.table.generation.other.index = 1 - s.table.generation.index := by
          cases s.table.generation <;> rfl
        show s.table.generation.other.index = (s.table.sequence + 1) % 2
        omega
      | _ => exact ih
    · rw [hread.generation_eq, hread.sequence_eq, ih]

/-! ### Calls as runs -/

/-- Operations that are not refused are told one after the other. -/
theorem Run.operate {origin : Table} {tx tx' : Transaction} {guards : List Generation}
    {answer : Transaction.Answer} (h : Run history ⟨.editing origin tx, guards⟩)
    (op : Transaction.Operation) (applied : tx.apply op = .ok (answer, tx')) :
    Run (.answer answer :: history) ⟨.editing origin tx', guards⟩ :=
  h.told (.operate applied)

theorem Run.begin {t : Table} {guards : List Generation} (h : Run history ⟨.rest t, guards⟩) :
    Run history ⟨.editing t t.begin, guards⟩ :=
  h.silent .begin fun _ htells => nomatch htells

theorem Run.abort {origin : Table} {tx : Transaction} {guards : List Generation}
    (h : Run history ⟨.editing origin tx, guards⟩) : Run history ⟨.rest tx.rollback, guards⟩ :=
  h.silent .abort fun _ htells => nomatch htells

/-- A commit that nobody reads along with is told when all its writes are done. -/
theorem Run.commit {origin : Table} {tx : Transaction} {p : Publication}
    (h : Run history ⟨.editing origin tx, []⟩) (accepted : tx.publish? = .ok p) :
    Run (.committed :: history) ⟨.rest p.finish, []⟩ := by
  have hflip := h.silent (.flip accepted) fun _ htells => nomatch htells
  have hquiet : p.isQuiet = true := decide_eq_true (hflip.reachable.inv.readers p.old)
  have hdrain := hflip.silent (.drain hquiet) fun _ htells => nomatch htells
  have hfinished : Run history ⟨.finalizing origin tx ⟨p.finish, p.old, [], []⟩, []⟩ :=
    (Finalization.steps_finish p).keeps
      (fun hf first => Run.silent hf (.write first) fun _ htells => nomatch htells) hdrain
  exact hfinished.told (.done ⟨rfl, rfl⟩)

/-! ### At rest -/

/-- What holds of a table whenever no transaction is open. Every linked rule is shown by both
generations; names and slots lead to each other; no two linked rules have the same handle; no
handle and no id was handed out twice; commits are counted, and their parity tells the current
generation. -/
theorem Run.representation {t : Table} {guards : List Generation}
    (h : Run history ⟨.rest t, guards⟩) :
    (∀ chain ∈ t.chains.toList, (∀ rule ∈ chain.rules, rule.mask = .all) ∧
      ∀ g, chain.visibleRules g = chain.rules) ∧
    (∀ name id, t.chains.idOf? name = some id ↔
      ∃ chain, t.chains.get? id = some chain ∧ chain.id = id ∧ chain.name = name) ∧
    t.chains.size = t.chains.toList.length ∧
    (t.chains.toList.flatMap fun chain => chain.rules.map (·.handle)).Nodup ∧
    (∀ id chain, t.chains.get? id = some chain → chain.id = id ∧ id.index < t.nextChain ∧
      ∀ rule ∈ chain.rules, rule.handle < t.nextHandle) ∧
    (history.filterMap Told.handle?).Nodup ∧ (history.filterMap Told.chain?).Nodup ∧
    t.generation.index = t.sequence % 2 ∧ t.sequence = history.count .committed := by
  obtain ⟨hrest, -⟩ := h.reachable.inv.good
  have hwf := hrest.wellFormed
  have horderly : t.Orderly := h.reachable.orderly
  have hnumbered := h.numbered
  refine ⟨?_, ?_, horderly.size_eq hwf, horderly.handles_nodup hwf, ?_, hnumbered.handles_nodup,
    hnumbered.chains_nodup, h.reachable.index_eq, h.count_committed.symm⟩
  · intro chain hmem
    obtain ⟨id, hget⟩ := ChainMap.mem_toList.mp hmem
    have hmarks := hrest.marks hget
    refine ⟨hmarks, fun g => List.filter_eq_self.mpr ?_⟩
    intro rule hrule
    rw [Rule.isActive, hmarks rule hrule, GenMask.get_all]
  · intro name id
    rw [hwf.idOf?_iff]
    constructor
    · rintro ⟨chain, hget, hname⟩
      exact ⟨chain, hget, hwf.id_eq hget, hname⟩
    · rintro ⟨chain, hget, -, hname⟩
      exact ⟨chain, hget, hname⟩
  · intro id chain hget
    exact ⟨hwf.id_eq hget, hwf.index_lt hget, hwf.handle_lt hget⟩

/-- A chain and a rule are added twice, and the first time given up: the numbers of the first time
do not come again. -/
theorem Run.representation_redone : ∃ history t, Run history ⟨.rest t, []⟩ ∧
    history = [.committed, .answer (.handle 2), .answer (.chain ⟨1⟩), .answer (.handle 1),
      .answer (.chain ⟨0⟩)] ∧
    t.chains.toList.map (·.id) = [⟨1⟩] ∧ t.chains.size = t.chains.toList.length ∧
    (history.filterMap Told.handle?).Nodup ∧ t.generation = .one ∧
    t.sequence = history.count .committed := by
  have fresh := (Run.create "filter" .initial 1).begin
  have undone := ((fresh.operate (.addChain "input" (some .accept)) rfl).operate
    (.placeRule ⟨0⟩ [] .back) rfl).abort
  have again := (undone.begin.operate (.addChain "input" (some .accept)) rfl).operate
    (.placeRule ⟨1⟩ [] .back) rfl
  have run := again.commit rfl
  obtain ⟨-, -, hsize, -, -, hhandles, -, -, hcommits⟩ := run.representation
  exact ⟨_, _, run, rfl, rfl, hsize, hhandles, rfl, hcommits⟩

end System

end RuleChain
