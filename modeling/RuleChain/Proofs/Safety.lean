import RuleChain.Evaluator
import RuleChain.Proofs.Expressions
import RuleChain.Proofs.System

/-! # Safety of walks

  Validation bounds the number of jumps on every path from a base chain, and a walk follows such
  paths. The invariant of a walk is `Journey.Safe`: the rules to come at a place belong to a chain
  from which there are at most so many jumps to take as places are left below the bound. A jump
  saves a place and has one jump less to go; a goto saves none.

  Hence a walk through a sound map never finds the stack full or a chain missing.
-/

namespace RuleChain

namespace Journey

/-! ### The places of a walk -/

/-- What a journey sees. -/
def sees (j : Journey) : PlainMap := j.chains.plain j.generation

section walk

variable {j : Journey} {left : Nat} {regs : Registers} {frame : Frame} {stack : JumpStack Frame}
  {events : List TraceEvent} {stop : Stop}

theorem walk_end (h : j.nextStop frame stack.frames = (events, none)) :
    j.walk left regs frame stack = (Walk.ended (.ok .byPolicy)).after events := by
  unfold walk walkBy
  simp only [h]
  rfl

theorem walk_exhausted (h : j.nextStop frame stack.frames = (events, some stop)) :
    j.walk 0 regs frame stack = (Walk.ended
      (.error (.stepBudgetExhausted stop.behind.chain.name j.budget))).after events := by
  unfold walk walkBy
  simp only [h]
  rfl

/-- Expressions are evaluated without checks. -/
theorem evalAllBy_direct (exprs : List Expr) (regs : Registers) (packet : Packet) :
    Expr.evalAllBy Access.direct.eval exprs regs packet = Expr.evalAll exprs regs packet :=
  rfl

theorem walk_go (h : j.nextStop frame stack.frames = (events, some stop)) {regs' : Registers}
    (heval : Expr.evalAll stop.rule.exprs regs.reset j.packet = regs') {more : List TraceEvent}
    {place : Frame} {stack' : JumpStack Frame}
    (hgo : j.follow stop regs'.verdict = (more, .go place stack')) :
    j.walk (left + 1) regs frame stack =
      ((j.walk left regs' place stack').visit.after more).after events := by
  subst heval
  unfold walk
  conv => lhs; unfold walkBy
  simp only [h, evalAllBy_direct, Id.run, bind, hgo]
  rfl

theorem walk_stop (h : j.nextStop frame stack.frames = (events, some stop)) {regs' : Registers}
    (heval : Expr.evalAll stop.rule.exprs regs.reset j.packet = regs') {more : List TraceEvent}
    {result : Except EvalError Ending} (hstop : j.follow stop regs'.verdict = (more, .stop result)) :
    j.walk (left + 1) regs frame stack = ((Walk.ended result).visit.after more).after events := by
  subst heval
  unfold walk walkBy
  simp only [h, evalAllBy_direct, Id.run, bind, hstop]
  rfl

end walk

/-- The registers, the place and the stack after some visits, on the way from a chain. -/
inductive Reaches (j : Journey) (chain : Chain) : Nat → Registers → Frame → JumpStack Frame → Prop
  where
  | start : j.Reaches chain 0 .initial (j.enter chain) .empty
  | visit {n : Nat} {regs : Registers} {frame place : Frame} {stack stack' : JumpStack Frame}
    {events more : List TraceEvent} {stop : Stop} (before : j.Reaches chain n regs frame stack)
    (next : j.nextStop frame stack.frames = (events, some stop))
    (goes : j.follow stop (Expr.evalAll stop.rule.exprs regs.reset j.packet).verdict =
      (more, .go place stack')) :
    j.Reaches chain (n + 1) (Expr.evalAll stop.rule.exprs regs.reset j.packet) place stack'

variable {j : Journey} {chain : Chain} {n : Nat} {regs : Registers} {frame : Frame}
  {stack : JumpStack Frame}

/-- The walk comes through these places: it ends as it would from any of them. -/
theorem Reaches.result_eq (h : j.Reaches chain n regs frame stack) (hn : n ≤ j.budget) :
    (j.start chain).result = (j.walk (j.budget - n) regs frame stack).result := by
  induction h with
  | start => rfl
  | @visit n regs frame place stack stack' events more stop before next goes ih =>
    rw [ih (Nat.le_of_succ_le hn)]
    -- there is still one visit left, and it is this one
    obtain ⟨left, hleft⟩ : ∃ left, j.budget - n = left + 1 := ⟨j.budget - n - 1, by omega⟩
    have hrest : j.budget - (n + 1) = left := by omega
    rw [hleft, hrest, walk_go next rfl goes]
    rfl

/-! ### The invariant -/

/-- The rules to come at a place are rules of a chain from which there are at most as many jumps
to take as places are left. -/
def Placed (j : Journey) (bound : Nat) (frame : Frame) (saved : Nat) : Prop :=
  ∃ id depth, (∀ rule ∈ frame.rest, rule.plain ∈ j.sees.rules id) ∧
    j.sees.edges.DepthLe id depth ∧ saved + depth ≤ bound

/-- So it is at a place and at all places saved. -/
inductive Safe (j : Journey) (bound : Nat) : Frame → List Frame → Prop where
  | base {frame : Frame} (placed : j.Placed bound frame 0) : j.Safe bound frame []
  | saved {frame back : Frame} {frames : List Frame}
    (placed : j.Placed bound frame (frames.length + 1)) (rest : j.Safe bound back frames) :
    j.Safe bound frame (back :: frames)

variable {bound : Nat} {frames : List Frame}

theorem Safe.placed (h : j.Safe bound frame frames) : j.Placed bound frame frames.length := by
  cases h with
  | base placed => exact placed
  | saved placed rest => exact placed

/-- Another place with the same stack. -/
theorem Safe.move (h : j.Safe bound frame frames) {place : Frame}
    (hplace : j.Placed bound place frames.length) : j.Safe bound place frames := by
  cases h with
  | base placed => exact .base hplace
  | saved placed rest => exact .saved hplace rest

theorem Safe.length_le (h : j.Safe bound frame frames) : frames.length ≤ bound := by
  obtain ⟨id, depth, -, -, hle⟩ := h.placed
  omega

/-- The first rule of a chain, if the chain is shallow enough. -/
theorem placed_enter {id : ChainId} (hget : j.chains.get? id = some chain) {depth saved : Nat}
    (hdepth : j.sees.edges.DepthLe id depth) (hle : saved + depth ≤ bound) :
    j.Placed bound (j.enter chain) saved := by
  refine ⟨id, depth, fun rule hrule => ?_, hdepth, hle⟩
  rw [sees, PlainMap.rules, ChainMap.plain_of_get? hget]
  exact List.mem_map_of_mem hrule

/-- A rule leads to one of its targets. -/
theorem target_mem (j : Journey) (regs : Registers) (rule : Rule) (target : ChainId × JumpKind)
    (h : (Expr.evalAll rule.exprs regs.reset j.packet).verdict.target? = some target) :
    target ∈ rule.exprs.filterMap Expr.target? :=
  Expr.target_mem_of_evalAll rfl h

/-- Leaving chains leads to a rule of the place saved last that has one left. -/
theorem Safe.nextStop (h : j.Safe bound frame frames) {events : List TraceEvent} {stop : Stop}
    (hnext : j.nextStop frame frames = (events, some stop)) :
    j.Safe bound { stop.behind with rest := stop.rule :: stop.behind.rest } stop.stack.frames := by
  -- down the stack: a place that has no rule left is left for the one below
  induction frames generalizing frame events with
  | nil =>
    unfold Journey.nextStop at hnext
    split at hnext
    · next rule rest hrest =>
      cases hnext
      obtain ⟨id, depth, hrules, hdepth, hle⟩ := h.placed
      rw [hrest] at hrules
      exact .base ⟨id, depth, hrules, hdepth, hle⟩
    · cases hnext
  | cons back frames ih =>
    unfold Journey.nextStop at hnext
    split at hnext
    · next rule rest hrest =>
      cases hnext
      obtain ⟨id, depth, hrules, hdepth, hle⟩ := h.placed
      rw [hrest] at hrules
      exact h.move ⟨id, depth, hrules, hdepth, hle⟩
    · cases h with
      | saved placed rest =>
        cases hstop : j.nextStop back frames with
        | mk events' stop' =>
          simp only [hstop] at hnext
          cases hnext
          exact ih rest hstop

/-- Following the verdict of a rule keeps the walk safe, or ends it without a fault. -/
theorem Safe.follow {stop : Stop} (h : j.Safe bound
      { stop.behind with rest := stop.rule :: stop.behind.rest } stop.stack.frames)
    (hsound : j.sees.Sound) (hbound : bound ≤ JumpStack.capacity) {verdict : Verdict}
    (hverdict : ∀ target, verdict.target? = some target →
      target ∈ stop.rule.exprs.filterMap Expr.target?) :
    (∃ more place stack, j.follow stop verdict = (more, .go place stack) ∧
      j.Safe bound place stack.frames) ∨
    ∃ more ending, j.follow stop verdict = (more, .stop (.ok ending)) := by
  obtain ⟨rule, behind, ⟨frames⟩⟩ := stop
  obtain ⟨id, depth, hrules, hdepth, hle⟩ := h.placed
  replace hle : frames.length + depth ≤ bound := hle
  have hbehind : j.Safe bound behind frames :=
    h.move ⟨id, depth, fun rule hrule => hrules rule (List.mem_cons_of_mem _ hrule), hdepth, hle⟩
  -- a target of the rule is there, and from it there are fewer jumps to take
  have htarget : ∀ target kind, verdict.target? = some (target, kind) →
      ∃ chain, j.chains.get? target = some chain ∧ kind.depth ≤ depth ∧
        ∀ saved, saved + (depth - kind.depth) ≤ bound → j.Placed bound (j.enter chain) saved := by
    intro target kind heq
    have hedge : (target, kind) ∈ j.sees.edges id :=
      List.mem_flatMap.mpr ⟨_, hrules rule List.mem_cons_self, hverdict _ heq⟩
    obtain ⟨dest, hdest, -⟩ := hsound.target hedge
    obtain ⟨chain, hget, -⟩ := Option.map_eq_some_iff.mp hdest
    obtain ⟨room, below⟩ := hdepth
    exact ⟨chain, hget, room target kind hedge,
      fun saved hsaved => placed_enter hget (below target kind hedge) hsaved⟩
  cases verdict with
  | mismatch => exact Or.inl ⟨_, _, _, rfl, hbehind⟩
  | proceed => exact Or.inl ⟨_, _, _, rfl, hbehind⟩
  | final d => exact Or.inr ⟨_, _, rfl⟩
  | jump target =>
    obtain ⟨chain, hget, hroom, hplaced⟩ := htarget target .jump rfl
    simp only [JumpKind.depth] at hroom hplaced
    -- the jump is one of those that the depth has counted, so there is a place left for it
    have hpush : JumpStack.push? ⟨frames⟩ behind = some ⟨behind :: frames⟩ := by
      unfold JumpStack.push? JumpStack.size
      exact if_pos (show frames.length < JumpStack.capacity by omega)
    refine Or.inl ⟨_, _, _, by simp only [Journey.follow, hget, hpush]; rfl, ?_⟩
    exact .saved (hplaced _ (by omega)) hbehind
  | goto target =>
    -- nothing is saved, so the room is the same as before
    obtain ⟨chain, hget, -, hplaced⟩ := htarget target .goto rfl
    refine Or.inl ⟨_, _, _, by simp only [Journey.follow, hget]; rfl, ?_⟩
    exact hbehind.move (hplaced _ hle)
  | leave =>
    -- the place saved last is safe, or there is none and the base chain is left
    cases hbehind with
    | base _ => exact Or.inr ⟨_, _, rfl⟩
    | saved _ rest => exact Or.inl ⟨_, _, _, rfl, rest⟩

/-! ### Whole walks -/

/-- A safe walk ends without a fault, unless the budget is exhausted. -/
theorem Safe.walk (h : j.Safe bound frame stack.frames) (hsound : j.sees.Sound)
    (hbound : bound ≤ JumpStack.capacity) (left : Nat) (regs : Registers) :
    (∃ ending, (j.walk left regs frame stack).result = .ok ending) ∨
      ∃ name, (j.walk left regs frame stack).result =
        .error (.stepBudgetExhausted name j.budget) := by
  -- on the budget, as the walk itself: every visit leads from a safe place to a safe place
  induction left generalizing frame stack regs with
  | zero =>
    cases hnext : j.nextStop frame stack.frames with
    | mk events stop? =>
      cases stop? with
      | none => exact Or.inl ⟨_, by rw [walk_end hnext]; rfl⟩
      | some stop => exact Or.inr ⟨_, by rw [walk_exhausted hnext]; rfl⟩
  | succ left ih =>
    cases hnext : j.nextStop frame stack.frames with
    | mk events stop? =>
      cases stop? with
      | none => exact Or.inl ⟨_, by rw [walk_end hnext]; rfl⟩
      | some stop =>
        have hstop := (h.nextStop hnext).follow hsound hbound (j.target_mem regs stop.rule)
        rcases hstop with ⟨more, place, stack', hgo, hsafe⟩ | ⟨more, ending, hend⟩
        · rw [walk_go hnext rfl hgo]
          exact ih hsafe _
        · exact Or.inl ⟨ending, by rw [walk_stop hnext rfl hend]; rfl⟩

/-- Every place that a walk reaches is safe. -/
theorem Reaches.safe (h : j.Reaches chain n regs frame stack) (hsound : j.sees.Sound)
    (hbound : bound ≤ JumpStack.capacity) (hstart : j.Placed bound (j.enter chain) 0) :
    j.Safe bound frame stack.frames := by
  induction h with
  | start => exact .base hstart
  | @visit n regs frame place stack stack' events more stop before next goes ih =>
    have hstop := (ih.nextStop next).follow hsound hbound (j.target_mem regs stop.rule)
    rw [goes] at hstop
    rcases hstop with ⟨more', place', stack'', heq, hsafe⟩ | ⟨more', ending, heq⟩
    · cases heq
      exact hsafe
    · cases heq

end Journey

/-! ### Evaluations -/

/-- What an ending means for the packet. -/
def Ending.disposition (policy : Policy) : Ending → Disposition
  | .byRule d => d
  | .byPolicy => policy.disposition

namespace Walk

/-- The result of a walk for a packet, when the policy of the base chain is known. -/
def evaluation (walk : Walk) (policy : Policy) : Except EvalError Evaluation :=
  walk.result.map fun ending => ⟨ending.disposition policy, walk.visited⟩

theorem evaluation_eq_error_iff {walk : Walk} {policy : Policy} {e : EvalError} :
    walk.evaluation policy = .error e ↔ walk.result = .error e := by
  unfold evaluation
  cases walk.result <;> simp [Except.map]

end Walk

namespace Evaluator

variable {t : Table} {base : ChainId}

theorem baseChain?_eq_some_iff {chain : Chain} {info : BaseChain} :
    baseChain? t base = some (chain, info) ↔
      t.chains.get? base = some chain ∧ chain.base = some info := by
  simp only [baseChain?, Option.bind_eq_bind, Option.bind_eq_some_iff, Option.pure_def,
    Option.some.injEq, Prod.mk.injEq]
  constructor
  · rintro ⟨c, hget, b, hbase, rfl, rfl⟩
    exact ⟨hget, hbase⟩
  · rintro ⟨hget, hbase⟩
    exact ⟨chain, hget, info, hbase, rfl, rfl⟩

theorem baseChain?_eq_none_iff :
    baseChain? t base = none ↔ ¬∃ chain, t.chains.get? base = some chain ∧ chain.isBase = true := by
  constructor
  · rintro hnone ⟨chain, hget, hbase⟩
    obtain ⟨info, hinfo⟩ := Option.isSome_iff_exists.mp hbase
    rw [baseChain?_eq_some_iff.mpr ⟨hget, hinfo⟩] at hnone
    cases hnone
  · intro habsent
    cases hfound : baseChain? t base with
    | none => rfl
    | some found =>
      obtain ⟨hget, hbase⟩ := baseChain?_eq_some_iff.mp hfound
      exact absurd ⟨found.1, hget, by rw [Chain.isBase, hbase]; rfl⟩ habsent

/-- The result of an evaluation is that of the walk. -/
theorem result_tryEvaluate (ev : Evaluator) (t : Table) (packet : Packet) (base : ChainId) :
    (ev.tryEvaluate t packet base).result =
      match baseChain? t base with
      | none => .error (.notBaseChain base)
      | some (chain, info) =>
        if info.ns ≠ packet.ns then .ok ⟨.accept, 0⟩
        else ((ev.journey t packet).start chain).evaluation info.policy := by
  have henter : baseChain? t.enter base = baseChain? t base := rfl
  unfold tryEvaluate tryEvaluateBy
  simp only [henter]
  cases baseChain? t base with
  | none => rfl
  | some found =>
    obtain ⟨chain, info⟩ := found
    simp only
    split
    · rfl
    · have hstart : (ev.journey t.enter packet).startBy .direct chain =
        (ev.journey t packet).start chain := rfl
      simp only [hstart, Id.run, bind, Walk.evaluation]
      cases hresult : ((ev.journey t packet).start chain).result with
      | error e => rfl
      | ok ending => cases ending <;> rfl

end Evaluator

namespace System

variable {s : System}

/-- A base chain that a reader can start from has a depth that fits the jump stack. -/
theorem Inv.exists_bound (h : s.Inv) {g : Generation}
    (hg : g = s.table.generation ∨ g ∈ s.guards) {base : ChainId} {chain : Chain}
    (hget : s.table.chains.get? base = some chain) (hbase : chain.isBase = true) :
    ∃ depth ≤ JumpStack.capacity, (s.sees g).edges.DepthLe base depth := by
  obtain ⟨depth, hdepth, hle⟩ := (h.sound hg).depth (ChainMap.plain_of_get? hget)
  refine ⟨depth, hle ?_, hdepth⟩
  obtain ⟨info, hinfo⟩ := Option.isSome_iff_exists.mp hbase
  simp [Chain.plain, hinfo]

/-- So has every base chain in the current generation. -/
theorem Inv.exists_depth (h : s.Inv) {base : ChainId} {chain : Chain} {info : BaseChain}
    (hget : s.table.chains.get? base = some chain) (hinfo : chain.base = some info) :
    ∃ depth ≤ JumpStack.capacity, (s.sees s.table.generation).edges.DepthLe base depth := by
  have hbase : chain.isBase = true := by
    rw [Chain.isBase, hinfo]
    rfl
  exact h.exists_bound (Or.inl rfl) hget hbase

/-- A walk from a base chain ends without a fault, unless the budget is exhausted. It comes through
all the places that can be reached from the chain, until the budget is exhausted, and at each of
them at most as many places are saved as the base chain is deep. -/
theorem Inv.walk_safe (h : s.Inv) (ev : Evaluator) (packet : Packet) {g : Generation}
    (hg : g = s.table.generation ∨ g ∈ s.guards) {base : ChainId} {chain : Chain}
    (hget : s.table.chains.get? base = some chain) (hbase : chain.isBase = true) :
    let j := { ev.journey s.table packet with generation := g }
    (∀ e, (j.start chain).result = .error e → ∃ name, e = .stepBudgetExhausted name ev.maxSteps) ∧
    ∃ depth ≤ JumpStack.capacity, j.sees.edges.DepthLe base depth ∧
      ∀ n regs frame stack, j.Reaches chain n regs frame stack → stack.size ≤ depth ∧
        (n ≤ ev.maxSteps →
          (j.start chain).result = (j.walk (ev.maxSteps - n) regs frame stack).result) := by
  intro j
  obtain ⟨depth, hle, hdepth⟩ := h.exists_bound hg hget hbase
  have hsound : j.sees.Sound := h.sound hg
  have hstart : j.Placed depth (j.enter chain) 0 :=
    Journey.placed_enter hget hdepth (Nat.le_of_eq (Nat.zero_add depth))
  refine ⟨fun e he => ?_, depth, hle, hdepth, fun n regs frame stack hreach => ⟨?_, ?_⟩⟩
  · have hsafe : j.Safe depth (j.enter chain) JumpStack.empty.frames := .base hstart
    rw [Journey.start] at he
    rcases hsafe.walk hsound hle j.budget .initial with ⟨ending, hok⟩ | ⟨name, herror⟩
    · rw [hok] at he
      cases he
    · rw [herror] at he
      cases he
      exact ⟨name, rfl⟩
  · exact (hreach.safe hsound hle hstart).length_le
  · exact hreach.result_eq

/-- The errors of an evaluation. -/
theorem Inv.error_cases (h : s.Inv) {ev : Evaluator} {packet : Packet} {base : ChainId}
    {e : EvalError} (he : (ev.tryEvaluate s.table packet base).result = .error e) :
    (e = .notBaseChain base ∧
      ¬∃ chain, s.table.chains.get? base = some chain ∧ chain.isBase = true) ∨
    ∃ name, e = .stepBudgetExhausted name ev.maxSteps := by
  rw [Evaluator.result_tryEvaluate] at he
  split at he
  · next hnone =>
    cases he
    exact Or.inl ⟨rfl, Evaluator.baseChain?_eq_none_iff.mp hnone⟩
  · next chain info hfound =>
    obtain ⟨hget, hinfo⟩ := Evaluator.baseChain?_eq_some_iff.mp hfound
    have hbase : chain.isBase = true := by rw [Chain.isBase, hinfo]; rfl
    split at he
    · cases he
    · exact Or.inr ((h.walk_safe ev packet (Or.inl rfl) hget hbase).1 e
        (Walk.evaluation_eq_error_iff.mp he))

/-- At every moment, an evaluation ends without a fault, unless the chain is not a base chain or
the budget is exhausted. So does the walk of every reader that is under way. It comes through all
the places that can be reached from the chain, until the budget is exhausted, and at each of them
at most as many places are saved as the base chain is deep, which the jump stack has room for. -/
theorem Reachable.evaluation_safe (h : s.Reachable) (ev : Evaluator) (packet : Packet)
    (base : ChainId) :
    (∀ e, (ev.tryEvaluate s.table packet base).result = .error e →
      e = .notBaseChain base ∨ ∃ name, e = .stepBudgetExhausted name ev.maxSteps) ∧
    ((ev.tryEvaluate s.table packet base).result = .error (.notBaseChain base) ↔
      ¬∃ chain, s.table.chains.get? base = some chain ∧ chain.isBase = true) ∧
    ∀ g, g = s.table.generation ∨ g ∈ s.guards → ∀ chain,
      s.table.chains.get? base = some chain → chain.isBase = true →
      let j := { ev.journey s.table packet with generation := g }
      (∀ e, (j.start chain).result = .error e → ∃ name, e = .stepBudgetExhausted name ev.maxSteps) ∧
      ∃ depth ≤ JumpStack.capacity, j.sees.edges.DepthLe base depth ∧
        ∀ n regs frame stack, j.Reaches chain n regs frame stack → stack.size ≤ depth ∧
          (n ≤ ev.maxSteps →
            (j.start chain).result = (j.walk (ev.maxSteps - n) regs frame stack).result) := by
  have hinv := h.inv
  refine ⟨fun e he => ?_, ⟨fun he => ?_, fun habsent => ?_⟩,
    fun g hg chain hget hbase => hinv.walk_safe ev packet hg hget hbase⟩
  · exact (hinv.error_cases he).imp_left And.left
  · rcases hinv.error_cases he with ⟨-, habsent⟩ | ⟨name, heq⟩
    · exact habsent
    · cases heq
  · rw [Evaluator.result_tryEvaluate, Evaluator.baseChain?_eq_none_iff.mpr habsent]

/-- A commit that adds a jump waits for one reader, and another one is on the new generation. -/
theorem Reachable.evaluation_safe_waiting : ∃ s : System, s.Reachable ∧ s.guards = [.one, .zero] ∧
    (Evaluator.plain.tryEvaluate s.table default ⟨1⟩).result = .error (.notBaseChain ⟨1⟩) ∧
    ∀ e, (Evaluator.plain.tryEvaluate s.table default ⟨0⟩).result = .error e →
      e = .notBaseChain ⟨0⟩ ∨ ∃ name, e = .stepBudgetExhausted name Evaluator.plain.maxSteps := by
  have opened := (((create "filter" .initial 1).step .enter).step .begin).applyAll
    [.addChain "input" (some .accept), .addChain "web" none,
      .placeRule ⟨0⟩ [.ofVerdict (.jump ⟨1⟩)] .back, .placeRule ⟨1⟩ [.ofVerdict .leave] .back]
  have flipped := (opened.step (.flip rfl)).step .enter
  refine ⟨_, flipped, rfl, ?_, (flipped.evaluation_safe Evaluator.plain default ⟨0⟩).1⟩
  refine (flipped.evaluation_safe Evaluator.plain default ⟨1⟩).2.1.mpr ?_
  rintro ⟨chain, hget, hbase⟩
  cases hget
  cases hbase

/-- An evaluation is made of steps of a reader. -/
theorem Reachable.evaluate (h : s.Reachable) (ev : Evaluator) (packet : Packet) (base : ChainId) :
    Reachable ⟨s.moment.withTable (ev.tryEvaluate s.table packet base).table, s.guards⟩ := by
  have hleft : Reachable ⟨s.moment.withTable (s.table.enter.leave s.table.generation), s.guards⟩ := by
    have hentered := (h.step .enter).step (.leave List.mem_cons_self)
    simpa [table] using hentered
  have hcounted : ∀ worker length, Reachable ⟨s.moment.withTable
      ((s.table.enter.modifyChain base (·.record worker length)).leave s.table.generation),
      s.guards⟩ := by
    intro worker length
    have hentered := ((h.step .enter).step (.record base worker length)).step
      (.leave List.mem_cons_self)
    simpa [table] using hentered
  unfold Evaluator.tryEvaluate Evaluator.tryEvaluateBy
  simp only [Id.run, bind]
  split
  · exact hleft
  · split
    · exact hleft
    · split
      · exact hleft
      · exact hleft
      · exact hcounted _ _

end System

end RuleChain
