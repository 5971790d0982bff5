import RuleChain.Session
import RuleChain.Proofs.Application
import RuleChain.Proofs.Evaluations

/-! # Runs of a session

  What one thread makes of a table, call by call. A call that sends a packet does what an evaluation
  does; of every other call `Session.Move` says what it may do to the table and to the guards, and
  a call that is refused does nothing.

  - What every write of the writer keeps, and what does not depend on the number of readers, is kept
    by every call that sends no packet (`Session.Move.keeps`).
  - Whatever calls come to, a system comes to as well (`Session.Reachable.attained`).
-/

namespace RuleChain

namespace Stage

@[simp] theorem table_withTable (stage : Stage) (t : Table) : (stage.withTable t).table = t := by
  cases stage <;> rfl

/-- A system that is at this moment is at this stage of a session. -/
inductive Stands : Stage → Moment → Prop where
  | idle (t : Table) : Stands (.idle t) (.rest t)
  | editing (origin : Table) (tx : Transaction) : Stands (.editing tx) (.editing origin tx)

variable {stage : Stage} {m : Moment}

theorem Stands.table_eq (h : stage.Stands m) : stage.table = m.table := by
  cases h <;> rfl

theorem Stands.withTable (h : stage.Stands m) (t : Table) :
    (stage.withTable t).Stands (m.withTable t) := by
  cases h with
  | idle t₀ => exact .idle t
  | editing origin tx => exact .editing origin { tx with table := t }

end Stage

namespace Session

/-! ### Calls -/

/-- What one thread can do with a table. -/
inductive Call where
  | begin
  | edit (operation : Transaction.Operation)
  | abort
  | commit
  | apply (ruleset : Ruleset)
  | applyText (text source : String)
  | tryEvaluate (packet : Packet) (base : ChainId)
  | evaluate (packet : Packet) (base : ChainId)
  | drain
  | publish
  | enter
  | leave (index : Nat)
  /-- From now on, packets are sent by another evaluator. -/
  | use (evaluator : Evaluator)

/-- The packet that a call sends, and where. -/
def Call.sends? : Call → Option (Packet × ChainId)
  | .tryEvaluate packet base => some (packet, base)
  | .evaluate packet base => some (packet, base)
  | _ => none

/-- The session that a call has come to; one that is refused leaves it as it was. -/
def orSame (s : Session) : Except SessionError Session → Session
  | .ok s' => s'
  | .error _ => s

/-- Makes a call. -/
def perform (s : Session) : Call → Session
  | .begin => s.orSame s.begin
  | .edit operation => s.orSame ((s.edit operation).map (·.2))
  | .abort => s.orSame s.abort
  | .commit => s.orSame (s.commit.map (·.2))
  | .apply ruleset => s.orSame ((s.apply ruleset).map (·.2))
  | .applyText text source => s.orSame ((s.applyText text source).map (·.2))
  | .tryEvaluate packet base => (s.tryEvaluate packet base).2
  | .evaluate packet base => (s.evaluate packet base).2
  | .drain => s.drain.2
  | .publish => s.publish
  | .enter => s.enter.2
  | .leave index => s.leave index
  | .use evaluator => { s with evaluator }

/-- Makes calls, one after the other. -/
def performAll (s : Session) (calls : List Call) : Session := calls.foldl perform s

/-- What a session on a new table can come to. -/
inductive Reachable : Session → Prop where
  | start (name : String) (ns : Namespace) (statsShards : Nat) (evaluator : Evaluator)
    (sink : TraceSink) : Reachable (start (.create name ns statsShards) evaluator sink)
  | perform {s : Session} (h : Reachable s) (call : Call) : Reachable (s.perform call)

theorem Reachable.performAll {s : Session} (h : s.Reachable) (calls : List Call) :
    (s.performAll calls).Reachable := by
  induction calls generalizing s with
  | nil => exact h
  | cons call rest ih => exact ih (h.perform call)

/-! ### What a call does -/

/-- What a call that sends no packet does to the table and to the guards. -/
inductive Move : Stage → List Generation → Stage → List Generation → Prop where
  | stay {stage : Stage} {guards : List Generation} : Move stage guards stage guards
  | begin {t : Table} {guards : List Generation} : Move (.idle t) guards (.editing t.begin) guards
  | operate {tx tx' : Transaction} {guards : List Generation} {op : Transaction.Operation}
    {answer : Transaction.Answer} (applied : tx.apply op = .ok (answer, tx')) :
    Move (.editing tx) guards (.editing tx') guards
  | abort {tx : Transaction} {guards : List Generation} :
    Move (.editing tx) guards (.idle tx.rollback) guards
  | commit {tx : Transaction} {guards : List Generation} (quiet : tx.table.generation ∉ guards) :
    Move (.editing tx) guards (.idle tx.commit.2.1) guards
  | apply {t : Table} {guards : List Generation} (ruleset : Ruleset)
    (quiet : t.generation ∉ guards) : Move (.idle t) guards (.idle (ruleset.apply t).2.1) guards
  | enter {stage : Stage} {guards : List Generation} :
    Move stage guards (stage.withTable stage.table.enter) (guards ++ [stage.table.generation])
  | leave {stage : Stage} {guards : List Generation} {index : Nat} {g : Generation}
    (held : guards[index]? = some g) :
    Move stage guards (stage.withTable (stage.table.leave g)) (guards.eraseIdx index)

section perform

variable {s : Session}

/-- A session is not held up if no guard is on the current generation. -/
theorem isHeld_eq_false : s.isHeld = false ↔ s.table.generation ∉ s.guards := by
  unfold isHeld
  rw [List.any_eq_false]
  constructor
  · intro hnone hmem
    exact hnone _ hmem (decide_eq_true rfl)
  · intro hnot g hg heq
    have hsame : g = s.table.generation := of_decide_eq_true heq
    rw [hsame] at hg
    exact hnot hg

/-- A call that is refused stays where it is. -/
theorem orSame_move {done : Except SessionError Session}
    (h : ∀ s', done = .ok s' → Move s.stage s.guards s'.stage s'.guards) :
    Move s.stage s.guards (s.orSame done).stage (s.orSame done).guards := by
  cases done with
  | error e => exact .stay
  | ok s' => exact h s' rfl

theorem edit_move {op : Transaction.Operation} {answer : Transaction.Answer} {s' : Session}
    (h : s.edit op = .ok (answer, s')) : Move s.stage s.guards s'.stage s'.guards := by
  obtain ⟨stage, ev, sink, guards, telemetry⟩ := s
  cases stage with
  | idle t => cases h
  | editing tx =>
    cases happly : tx.apply op with
    | error e =>
      simp only [edit, transaction, happly, bind, Except.bind] at h
      cases h
    | ok done =>
      simp only [edit, transaction, happly, bind, Except.bind] at h
      cases h
      exact .operate happly

theorem commit_move {answer : Except EngineError Nat} {s' : Session}
    (h : s.commit = .ok (answer, s')) : Move s.stage s.guards s'.stage s'.guards := by
  obtain ⟨stage, ev, sink, guards, telemetry⟩ := s
  cases stage with
  | idle t => cases h
  | editing tx =>
    cases hheld : isHeld ⟨.editing tx, ev, sink, guards, telemetry⟩ with
    | true =>
      simp only [commit, committable, transaction, hheld, bind, Except.bind] at h
      cases h
    | false =>
      simp only [commit, committable, transaction, hheld, bind, Except.bind] at h
      cases h
      exact .commit (isHeld_eq_false.mp hheld)

theorem apply_move {ruleset : Ruleset} {answer : Except EngineError Nat} {s' : Session}
    (h : s.apply ruleset = .ok (answer, s')) : Move s.stage s.guards s'.stage s'.guards := by
  obtain ⟨stage, ev, sink, guards, telemetry⟩ := s
  cases stage with
  | editing tx => cases h
  | idle t =>
    cases hheld : isHeld ⟨.idle t, ev, sink, guards, telemetry⟩ with
    | true =>
      simp only [Session.apply, settled, hheld, bind, Except.bind] at h
      cases h
    | false =>
      simp only [Session.apply, settled, hheld, bind, Except.bind] at h
      cases h
      exact .apply ruleset (isHeld_eq_false.mp hheld)

theorem applyText_move {text source : String} {answer : Except EngineError Nat} {s' : Session}
    (h : s.applyText text source = .ok (answer, s')) :
    Move s.stage s.guards s'.stage s'.guards := by
  unfold applyText at h
  cases hsettled : s.settled with
  | error e =>
    rw [hsettled] at h
    cases h
  | ok t =>
    simp only [hsettled, bind, Except.bind] at h
    split at h
    · exact apply_move h
    · cases h
      exact .stay

theorem perform_move (s : Session) {call : Call} (hsends : call.sends? = none) :
    Move s.stage s.guards (s.perform call).stage (s.perform call).guards := by
  -- the answer of a call does not matter
  have hanswer : ∀ {α : Type} {done : Except SessionError (α × Session)},
      (∀ answer s', done = .ok (answer, s') → Move s.stage s.guards s'.stage s'.guards) →
      ∀ s', done.map (·.2) = .ok s' → Move s.stage s.guards s'.stage s'.guards := by
    intro α done h s' hdone
    cases done with
    | error e => cases hdone
    | ok result =>
      cases hdone
      exact h _ _ rfl
  cases call with
  | begin =>
    obtain ⟨stage, ev, sink, guards, telemetry⟩ := s
    cases stage with
    | idle t => exact .begin
    | editing tx => exact .stay
  | edit op => exact orSame_move (hanswer fun _ _ => edit_move)
  | abort =>
    obtain ⟨stage, ev, sink, guards, telemetry⟩ := s
    cases stage with
    | idle t => exact .stay
    | editing tx => exact .abort
  | commit => exact orSame_move (hanswer fun _ _ => commit_move)
  | apply ruleset => exact orSame_move (hanswer fun _ _ => apply_move)
  | applyText text source => exact orSame_move (hanswer fun _ _ => applyText_move)
  | tryEvaluate packet base => cases hsends
  | evaluate packet base => cases hsends
  | drain => exact .stay
  | publish => exact .stay
  | enter => exact .enter
  | leave index =>
    show Move s.stage s.guards (s.leave index).stage (s.leave index).guards
    unfold Session.leave
    cases hheld : s.guards[index]? with
    | none => exact .stay
    | some g => exact .leave hheld
  | use evaluator => exact .stay

/-- A call that sends a packet leaves the table of the evaluation. -/
theorem perform_sends (s : Session) {call : Call} {packet : Packet} {base : ChainId}
    (hsends : call.sends? = some (packet, base)) :
    (s.perform call).stage =
        s.stage.withTable (s.evaluator.tryEvaluate s.table packet base).table ∧
      (s.perform call).guards = s.guards := by
  cases call with
  | tryEvaluate p b =>
    cases hsends
    exact ⟨rfl, rfl⟩
  | evaluate p b =>
    cases hsends
    exact ⟨rfl, rfl⟩
  | _ => cases hsends

end perform

/-! ### What calls keep -/

section keeps

variable {P : Table → Prop} (hwrite : ∀ {t t' : Table}, P t → t.Write t' → P t')
include hwrite

/-- What every write keeps, however many readers there are, is kept by a call that sends no
packet. -/
theorem Move.keeps (hreaders : ∀ {t : Table} (readers : PerGeneration Nat), P t →
      P { t with readers }) {stage stage' : Stage} {guards guards' : List Generation}
    (hmove : Move stage guards stage' guards') (h : P stage.table) : P stage'.table := by
  cases hmove with
  | stay => exact h
  | begin => exact h
  | operate applied => exact hwrite h (Transaction.edit_of_apply applied).write
  | abort => exact hwrite h (Transaction.rollback_write _)
  | commit quiet => exact Transaction.commit_keeps hwrite h
  | apply ruleset quiet => exact Ruleset.apply_keeps hwrite h ruleset
  | enter =>
    rw [Stage.table_withTable]
    exact hreaders _ h
  | leave held =>
    rw [Stage.table_withTable]
    exact hreaders _ h

end keeps

/-! ### Sessions and systems -/

/-- A system comes to this stage, with the same guards in some order. -/
def Attained (stage : Stage) (guards : List Generation) : Prop :=
  ∃ m guards', System.Reachable ⟨m, guards'⟩ ∧ stage.Stands m ∧ guards'.Perm guards

section attained

variable {stage stage' : Stage} {guards guards' : List Generation}

/-- Guards that are not on the current generation would be on none. -/
theorem eq_nil_of_quiet {m : Moment} (h : System.Reachable ⟨m, guards'⟩) (hstands : stage.Stands m)
    (hperm : guards'.Perm guards) (hquiet : stage.table.generation ∉ guards) : guards' = [] := by
  have hcurrent : ∀ g ∈ guards', g = stage.table.generation := by
    have hgood := h.inv.good
    cases hstands with
    | idle t => exact hgood.2
    | editing origin tx => exact hgood.2.2
  refine List.eq_nil_iff_forall_not_mem.mpr ?_
  intro g hg
  have hmem := hperm.subset hg
  rw [hcurrent g hg] at hmem
  exact hquiet hmem

theorem Move.attained (hmove : Move stage guards stage' guards') (h : Attained stage guards) :
    Attained stage' guards' := by
  obtain ⟨m, held, hreach, hstands, hperm⟩ := h
  cases hmove with
  | stay => exact ⟨m, held, hreach, hstands, hperm⟩
  | begin =>
    cases hstands with
    | idle => exact ⟨_, _, hreach.step .begin, .editing _ _, hperm⟩
  | operate applied =>
    cases hstands with
    | editing origin tx => exact ⟨_, _, hreach.step (.operate applied), .editing origin _, hperm⟩
  | abort =>
    cases hstands with
    | editing origin tx => exact ⟨_, _, hreach.step .abort, .idle _, hperm⟩
  | commit quiet =>
    obtain rfl := eq_nil_of_quiet hreach hstands hperm quiet
    cases hstands with
    | editing origin tx => exact ⟨_, _, hreach.commit, .idle _, hperm⟩
  | apply ruleset quiet =>
    obtain rfl := eq_nil_of_quiet hreach hstands hperm quiet
    cases hstands with
    | idle => exact ⟨_, _, Ruleset.apply_reachable hreach ruleset, .idle _, hperm⟩
  | enter =>
    refine ⟨_, _, hreach.step .enter, ?_, ?_⟩
    · rw [hstands.table_eq]
      exact hstands.withTable m.table.enter
    · rw [hstands.table_eq]
      exact (hperm.cons _).trans (List.perm_append_singleton _ _).symm
  | @leave stage guards index g hheld =>
    obtain ⟨hlt, hg⟩ := List.getElem?_eq_some_iff.mp hheld
    have hmem : g ∈ held := hperm.mem_iff.mpr (List.mem_of_getElem? hheld)
    refine ⟨_, _, hreach.step (.leave hmem), ?_, ?_⟩
    · rw [hstands.table_eq]
      exact hstands.withTable (m.table.leave g)
    · -- both lists are what is left of the guards without this one
      have hleft : (g :: held.erase g).Perm (g :: guards.eraseIdx index) := by
        have hindex := List.getElem_cons_eraseIdx_perm hlt
        rw [hg] at hindex
        exact ((List.perm_cons_erase hmem).symm.trans hperm).trans hindex.symm
      exact hleft.cons_inv

/-- An evaluation counts a packet or does nothing. -/
theorem Attained.evaluate (h : Attained stage guards) (ev : Evaluator) (packet : Packet)
    (base : ChainId) :
    Attained (stage.withTable (ev.tryEvaluate stage.table packet base).table) guards := by
  obtain ⟨m, held, hreach, hstands, hperm⟩ := h
  rw [ev.table_tryEvaluate]
  by_cases hcounts : ev.counts stage.table packet base = true
  · rw [if_pos hcounts]
    refine ⟨_, _, hreach.step (.record base ev.worker (UInt64.ofNat packet.data.length)), ?_, hperm⟩
    rw [hstands.table_eq]
    exact hstands.withTable _
  · rw [if_neg hcounts]
    refine ⟨m.withTable stage.table, held, ?_, hstands.withTable _, hperm⟩
    rw [hstands.table_eq, Moment.withTable_self]
    exact hreach

theorem Attained.perform {s : Session} (h : Attained s.stage s.guards) (call : Call) :
    Attained (s.perform call).stage (s.perform call).guards := by
  cases hsends : call.sends? with
  | none => exact (s.perform_move hsends).attained h
  | some sent =>
    obtain ⟨hstage, hguards⟩ := s.perform_sends hsends
    rw [hstage, hguards]
    exact h.evaluate s.evaluator sent.1 sent.2

theorem attained_start (name : String) (ns : Namespace) (statsShards : Nat) (ev : Evaluator)
    (sink : TraceSink) : Attained (start (.create name ns statsShards) ev sink).stage [] :=
  ⟨_, _, .create name ns statsShards, .idle _, .refl _⟩

theorem Reachable.attained {s : Session} (h : s.Reachable) : Attained s.stage s.guards := by
  induction h with
  | start name ns shards ev sink => exact attained_start name ns shards ev sink
  | perform _ call ih => exact ih.perform call

/-- The table of a session is one that a system comes to. -/
theorem Reachable.exists_system {s : Session} (h : s.Reachable) :
    ∃ system : System, system.Reachable ∧ system.table = s.table := by
  obtain ⟨m, held, hreach, hstands, -⟩ := h.attained
  exact ⟨_, hreach, hstands.table_eq.symm⟩

theorem Reachable.wellFormed {s : Session} (h : s.Reachable) : s.table.WellFormed := by
  obtain ⟨system, hreach, htable⟩ := h.exists_system
  rw [← htable]
  exact hreach.inv.wellFormed

end attained

end Session

end RuleChain
