import RuleChain.Proofs.Evaluations
import RuleChain.Proofs.Meaning

/-! # Walks without a budget

  `Journey.Tour` is a walk that may visit as many rules as it likes: the rules that it visits one
  after the other, its events, and how it ends. It does not mention the budget.

  A walk with a budget goes the same way. If the budget is enough for all visits, it is the whole
  tour (`Tour.walk_eq`); if not, it is given up at the first rule that it may not visit, with the
  events up to there (`Tour.walk_cut`). From a base chain of a sound map there is always a tour,
  since a walk with enough budget ends.
-/

namespace RuleChain

/-- The place is in a chain of the map, and its rules to come are visible ones of the chain. -/
structure Frame.Within (j : Journey) (frame : Frame) : Prop where
  found : ∃ id, j.chains.get? id = some frame.chain
  visible : ∀ rule ∈ frame.rest, rule ∈ frame.chain.visibleRules j.generation

namespace Journey

variable {j : Journey} {left : Nat} {regs : Registers} {frame : Frame} {frames : List Frame}
  {stack : JumpStack Frame} {visits : List Stop} {trace events : List TraceEvent} {stop : Stop}
  {ending : Ending}

/-! ### Tours -/

/-- A walk on from a place, with the rules visited and the events. -/
inductive Tour (j : Journey) : Registers → Frame → JumpStack Frame → List Stop → List TraceEvent →
    Ending → Prop where
  /-- All chains are left. -/
  | finish {regs : Registers} {frame : Frame} {stack : JumpStack Frame} {events : List TraceEvent}
    (next : j.nextStop frame stack.frames = (events, none)) :
    j.Tour regs frame stack [] events .byPolicy
  /-- A rule ends the walk. -/
  | last {regs : Registers} {frame : Frame} {stack : JumpStack Frame}
    {events more : List TraceEvent} {stop : Stop} {ending : Ending}
    (next : j.nextStop frame stack.frames = (events, some stop))
    (ends : j.follow stop (Expr.evalAll stop.rule.exprs regs.reset j.packet).verdict =
      (more, .stop (.ok ending))) :
    j.Tour regs frame stack [stop] (events ++ more) ending
  /-- A rule leads to another place. -/
  | visit {regs : Registers} {frame place : Frame} {stack stack' : JumpStack Frame}
    {events more trace : List TraceEvent} {stop : Stop} {visits : List Stop} {ending : Ending}
    (next : j.nextStop frame stack.frames = (events, some stop))
    (goes : j.follow stop (Expr.evalAll stop.rule.exprs regs.reset j.packet).verdict =
      (more, .go place stack'))
    (rest : j.Tour (Expr.evalAll stop.rule.exprs regs.reset j.packet) place stack' visits trace
      ending) :
    j.Tour regs frame stack (stop :: visits) (events ++ (more ++ trace)) ending

/-- A walk that ends well has made a tour. -/
theorem exists_tour (h : (j.walk left regs frame stack).result = .ok ending) :
    ∃ visits trace, j.Tour regs frame stack visits trace ending := by
  induction left generalizing regs frame stack with
  | zero =>
    cases hnext : j.nextStop frame stack.frames with
    | mk events stop? =>
      cases stop? with
      | none =>
        rw [walk_end hnext] at h
        cases h
        exact ⟨_, _, .finish hnext⟩
      | some stop =>
        rw [walk_exhausted hnext] at h
        cases h
  | succ left ih =>
    cases hnext : j.nextStop frame stack.frames with
    | mk events stop? =>
      cases stop? with
      | none =>
        rw [walk_end hnext] at h
        cases h
        exact ⟨_, _, .finish hnext⟩
      | some stop =>
        cases hfollow : j.follow stop
            (Expr.evalAll stop.rule.exprs regs.reset j.packet).verdict with
        | mk more next =>
          cases next with
          | go place stack' =>
            rw [walk_go hnext rfl hfollow] at h
            obtain ⟨visits, trace, hrest⟩ := ih h
            exact ⟨_, _, .visit hnext hfollow hrest⟩
          | stop result =>
            rw [walk_stop hnext rfl hfollow] at h
            obtain rfl : result = .ok ending := h
            exact ⟨_, _, .last hnext hfollow⟩

/-! ### Budgets -/

/-- A walk that may visit enough rules makes the whole tour. -/
theorem Tour.walk_eq (h : j.Tour regs frame stack visits trace ending)
    (hle : visits.length ≤ left) :
    j.walk left regs frame stack = ⟨trace, visits.length, .ok ending⟩ := by
  induction h generalizing left with
  | finish next =>
    rw [walk_end next]
    simp [Walk.ended, Walk.after]
  | last next ends =>
    obtain ⟨rest, rfl⟩ := Nat.exists_eq_add_of_le' hle
    rw [List.length_singleton, walk_stop next rfl ends]
    simp [Walk.ended, Walk.visit, Walk.after]
  | visit next goes rest ih =>
    cases left with
    | zero => exact absurd hle (Nat.not_succ_le_zero _)
    | succ left =>
      rw [walk_go next rfl goes, ih (Nat.le_of_succ_le_succ hle)]
      rfl

/-- A walk that may not is given up at the first rule that it may not visit. -/
theorem Tour.walk_cut (h : j.Tour regs frame stack visits trace ending)
    (hlt : left < visits.length) :
    ∃ stop, visits[left]? = some stop ∧
      (j.walk left regs frame stack).result =
        .error (.stepBudgetExhausted stop.behind.chain.name j.budget) ∧
      (j.walk left regs frame stack).events <+: trace := by
  induction h generalizing left with
  | finish next => exact absurd hlt (Nat.not_lt_zero left)
  | @last regs frame stack events more stop ending next ends =>
    obtain rfl : left = 0 := Nat.lt_one_iff.mp hlt
    rw [walk_exhausted next]
    refine ⟨stop, rfl, rfl, ?_⟩
    simp [Walk.ended, Walk.after]
  | @visit regs frame place stack stack' events more trace stop visits ending next goes rest ih =>
    cases left with
    | zero =>
      rw [walk_exhausted next]
      refine ⟨stop, rfl, rfl, ?_⟩
      simp [Walk.ended, Walk.after]
    | succ left =>
      -- the visit is the same in both walks, so what follows it is compared
      obtain ⟨cut, hcut, hresult, hevents⟩ := ih (Nat.lt_of_succ_lt_succ hlt)
      rw [walk_go next rfl goes]
      have hmore : more ++ (j.walk left _ place stack').events <+: more ++ trace :=
        (List.prefix_append_right_inj more).mpr hevents
      exact ⟨cut, hcut, hresult, (List.prefix_append_right_inj events).mpr hmore⟩

/-- The budget is no part of the way. -/
theorem nextStop_budget (j : Journey) (budget : Nat) (frame : Frame) (frames : List Frame) :
    nextStop { j with budget } frame frames = j.nextStop frame frames := by
  induction frames generalizing frame with
  | nil =>
    unfold nextStop
    rfl
  | cons back frames ih =>
    unfold nextStop
    simp only [ih back]
    rfl

theorem Tour.budget (h : j.Tour regs frame stack visits trace ending) (budget : Nat) :
    Tour { j with budget } regs frame stack visits trace ending := by
  induction h with
  | finish next => exact .finish ((j.nextStop_budget budget _ _).trans next)
  | last next ends => exact .last ((j.nextStop_budget budget _ _).trans next) ends
  | visit next goes rest ih => exact .visit ((j.nextStop_budget budget _ _).trans next) goes ih

/-! ### The chains of a tour -/

theorem enter_within {id : ChainId} {chain : Chain} (hget : j.chains.get? id = some chain) :
    (j.enter chain).Within j where
  found := ⟨id, hget⟩
  visible _ hrule := hrule

/-- The rule is a visible one of the chain that the place behind it is in. -/
structure Stop.Within (j : Journey) (stop : Stop) : Prop where
  visible : stop.rule ∈ stop.behind.chain.visibleRules j.generation
  behind : stop.behind.Within j
  stack : ∀ back ∈ stop.stack.frames, back.Within j

theorem nextStop_within (hframe : frame.Within j) (hframes : ∀ back ∈ frames, back.Within j)
    (hnext : j.nextStop frame frames = (events, some stop)) : stop.Within j := by
  -- the first rule left, here or further down the stack
  have hfirst : ∀ {frame : Frame} {frames : List Frame} {rule : Rule} {rest : List Rule},
      frame.Within j → (∀ back ∈ frames, back.Within j) → frame.rest = rule :: rest →
      Stop.Within j ⟨rule, { frame with rest, passed := frame.passed + 1 }, ⟨frames⟩⟩ := by
    intro frame frames rule rest hframe hframes hrest
    have hvisible := hframe.visible
    rw [hrest] at hvisible
    refine ⟨hvisible rule List.mem_cons_self, ⟨hframe.found, ?_⟩, hframes⟩
    exact fun r hr => hvisible r (List.mem_cons_of_mem _ hr)
  induction frames generalizing frame events with
  | nil =>
    unfold nextStop at hnext
    split at hnext
    · next rule rest hrest =>
      cases hnext
      exact hfirst hframe hframes hrest
    · cases hnext
  | cons back frames ih =>
    unfold nextStop at hnext
    split at hnext
    · next rule rest hrest =>
      cases hnext
      exact hfirst hframe hframes hrest
    · cases hstop : j.nextStop back frames with
      | mk events' stop' =>
        simp only [hstop] at hnext
        cases hnext
        exact ih (hframes back List.mem_cons_self)
          (fun b hb => hframes b (List.mem_cons_of_mem _ hb)) hstop

theorem follow_within (h : stop.Within j) {verdict : Verdict} {more : List TraceEvent}
    {place : Frame} (hgo : j.follow stop verdict = (more, .go place stack)) :
    place.Within j ∧ ∀ back ∈ stack.frames, back.Within j := by
  unfold follow at hgo
  cases verdict with
  | mismatch =>
    cases hgo
    exact ⟨h.behind, h.stack⟩
  | proceed =>
    cases hgo
    exact ⟨h.behind, h.stack⟩
  | final d => cases hgo
  | jump target =>
    cases hget : j.chains.get? target with
    | none => simp [hget] at hgo
    | some chain =>
      cases hpush : stop.stack.push? stop.behind with
      | none => simp [hget, hpush] at hgo
      | some saved =>
        simp only [hget, hpush] at hgo
        cases hgo
        refine ⟨enter_within hget, ?_⟩
        -- the place behind the rule is saved, on top of those saved before
        rw [JumpStack.frames_of_push? hpush]
        exact List.forall_mem_cons.mpr ⟨h.behind, h.stack⟩
  | goto target =>
    cases hget : j.chains.get? target with
    | none => simp [hget] at hgo
    | some chain =>
      simp only [hget] at hgo
      cases hgo
      exact ⟨enter_within hget, h.stack⟩
  | leave =>
    obtain ⟨rule, behind, ⟨frames⟩⟩ := stop
    cases frames with
    | nil => cases hgo
    | cons back frames =>
      cases hgo
      exact List.forall_mem_cons.mp h.stack

/-- Every rule that is visited is a visible rule of a chain of the map. -/
theorem Tour.within (h : j.Tour regs frame stack visits trace ending) (hframe : frame.Within j)
    (hstack : ∀ back ∈ stack.frames, back.Within j) : ∀ stop ∈ visits, stop.Within j := by
  induction h with
  | finish next => exact fun stop hmem => absurd hmem List.not_mem_nil
  | last next ends =>
    intro stop hmem
    obtain rfl := List.mem_singleton.mp hmem
    exact nextStop_within hframe hstack next
  | visit next goes rest ih =>
    intro stop hmem
    have hstop := nextStop_within hframe hstack next
    rcases List.mem_cons.mp hmem with rfl | hmem
    · exact hstop
    · obtain ⟨hplace, hstack'⟩ := follow_within hstop goes
      exact ih hplace hstack' stop hmem

/-! ### From a base chain -/

section start

variable {base : ChainId} {chain : Chain} {bound : Nat} {policy : Policy}

/-- From a chain of a sound map there is a tour. -/
theorem exists_start_tour (hget : j.chains.get? base = some chain) (hsound : j.sees.Sound)
    (hdepth : j.sees.edges.DepthLe base bound) (hbound : bound ≤ JumpStack.capacity) :
    ∃ visits trace ending, j.Tour .initial (j.enter chain) .empty visits trace ending := by
  obtain ⟨d, n, hanswer⟩ := PlainMap.exists_answers hdepth .accept
  obtain ⟨ending, hmeans, -⟩ := PlainMap.answers_iff.mp hanswer
  -- a walk that may visit as many rules as the answer takes ends well
  have hwalk := start_eq hget hsound hdepth hbound hmeans n
  rw [if_pos (Nat.le_refl n)] at hwalk
  obtain ⟨visits, trace, htour⟩ := exists_tour hwalk.1
  exact ⟨visits, trace, ending, htour⟩

theorem Tour.start_eq (h : j.Tour .initial (j.enter chain) .empty visits trace ending)
    (hle : visits.length ≤ j.budget) : j.start chain = ⟨trace, visits.length, .ok ending⟩ :=
  h.walk_eq hle

/-- All rules visited are visible ones of chains of the map. -/
theorem Tour.start_within (h : j.Tour .initial (j.enter chain) .empty visits trace ending)
    (hget : j.chains.get? base = some chain) : ∀ stop ∈ visits, stop.Within j := by
  refine h.within (enter_within hget) ?_
  intro back hback
  exact absurd hback List.not_mem_nil

/-- All that is told of a packet with enough budget begins with the events of the tour. -/
theorem Tour.prefix_told (h : j.Tour .initial (j.enter chain) .empty visits trace ending)
    (hle : visits.length ≤ j.budget) : trace <+: Evaluator.told j chain policy := by
  unfold Evaluator.told
  rw [h.start_eq hle]
  cases ending with
  | byRule d => exact List.prefix_rfl
  | byPolicy => exact List.prefix_append trace _

/-- With less budget the events up to there are told. -/
theorem Tour.told_cut (h : j.Tour .initial (j.enter chain) .empty visits trace ending)
    (hlt : j.budget < visits.length) : Evaluator.told j chain policy <+: trace := by
  obtain ⟨stop, -, hresult, hevents⟩ := h.walk_cut hlt
  unfold Evaluator.told
  have hstart : (j.start chain).result =
      .error (.stepBudgetExhausted stop.behind.chain.name j.budget) := hresult
  simp only [hstart]
  exact hevents

end start

end Journey

/-! ### Evaluations -/

namespace System

variable {s : System}

/-- For every base chain, every packet of its namespace and every generation that a reader can be
pinned to, there is a walk without a budget. With a budget that is enough for its visits, a walk is
this one, whatever the budget is. With less, a walk is given up with the name of the chain that the
first rule too many is in, and with the events up to there; then nothing is counted, and the packet
is dropped. The budget is the one in the settings, and one if there is none. -/
theorem Reachable.budget_cuts (h : s.Reachable) (packet : Packet) {base : ChainId} {chain : Chain}
    {info : BaseChain} (hget : s.table.chains.get? base = some chain)
    (hinfo : chain.base = some info) (hns : info.ns = packet.ns) {g : Generation}
    (hg : g = s.table.generation ∨ g ∈ s.guards) :
    (∃ (visits : List Journey.Stop) (trace : List TraceEvent) (ending : Ending),
      (∀ stop ∈ visits, stop.rule ∈ stop.behind.chain.visibleRules g ∧
        ∃ id, s.table.chains.get? id = some stop.behind.chain) ∧
      ∀ ev : Evaluator,
        let j := { ev.journey s.table packet with generation := g }
        let evaluated := ev.tryEvaluate s.table packet base
        j.Tour .initial (j.enter chain) .empty visits trace ending ∧
        (visits.length ≤ ev.maxSteps →
          j.start chain = ⟨trace, visits.length, .ok ending⟩ ∧
          (g = s.table.generation →
            evaluated.result = .ok ⟨ending.disposition info.policy, visits.length⟩)) ∧
        (ev.maxSteps < visits.length → ∃ stop, visits[ev.maxSteps]? = some stop ∧
          (j.start chain).result =
            .error (.stepBudgetExhausted stop.behind.chain.name ev.maxSteps) ∧
          (j.start chain).events <+: trace ∧
          (g = s.table.generation →
            evaluated.result =
              .error (.stepBudgetExhausted stop.behind.chain.name ev.maxSteps) ∧
            Evaluator.disposition evaluated.result = .drop ∧ evaluated.table = s.table ∧
            ∀ budget, visits.length ≤ budget → evaluated.events <+:
              ({ ev with maxSteps := budget }.tryEvaluate s.table packet base).events))) ∧
    ∀ settings : EngineSettings,
      (Evaluator.ofSettings settings).maxSteps = max settings.maxSteps 1 ∧
      Evaluator.ofSettings { settings with maxSteps := 0 } =
        Evaluator.ofSettings { settings with maxSteps := 1 } := by
  have hbase : chain.isBase = true := by rw [Chain.isBase, hinfo]; rfl
  obtain ⟨depth, hle, hdepth⟩ := h.inv.exists_bound hg hget hbase
  have hsound : (s.sees g).Sound := h.inv.sound hg
  obtain ⟨visits, trace, ending, htour⟩ := @Journey.exists_start_tour
    { Evaluator.plain.journey s.table packet with generation := g } base chain depth hget hsound
    hdepth hle
  refine ⟨⟨visits, trace, ending, ?_, ?_⟩, fun settings => ⟨rfl, rfl⟩⟩
  · intro stop hmem
    have hwithin := htour.start_within hget stop hmem
    exact ⟨hwithin.visible, hwithin.behind.found⟩
  · intro ev j evaluated
    have htour' : j.Tour .initial (j.enter chain) .empty visits trace ending :=
      htour.budget ev.maxSteps
    refine ⟨htour', fun hsteps => ⟨htour'.start_eq hsteps, ?_⟩, fun hsteps => ?_⟩
    · rintro rfl
      have hstart : (ev.journey s.table packet).start chain = ⟨trace, visits.length, .ok ending⟩ :=
        htour'.start_eq hsteps
      show (ev.tryEvaluate s.table packet base).result = _
      rw [ev.result_of_base hget hinfo hns, hstart]
      rfl
    · obtain ⟨stop, hstop, hresult, hevents⟩ := htour'.walk_cut hsteps
      refine ⟨stop, hstop, hresult, hevents, ?_⟩
      rintro rfl
      have herror : evaluated.result =
          .error (.stepBudgetExhausted stop.behind.chain.name ev.maxSteps) :=
        (ev.result_of_base hget hinfo hns).trans (Walk.evaluation_eq_error_iff.mpr hresult)
      refine ⟨herror, by rw [herror]; rfl, ev.table_of_error herror, ?_⟩
      intro budget hbudget
      show (ev.tryEvaluate s.table packet base).events <+: _
      rw [ev.events_of_base hget hinfo hns,
        Evaluator.events_of_base { ev with maxSteps := budget } hget hinfo hns]
      split
      · exact (htour'.told_cut hsteps).trans ((htour.budget budget).prefix_told hbudget)
      · exact List.nil_prefix

/-- A jump to a chain that drops the packet: two visits are enough, and with one the walk is given
up in the chain jumped to. -/
theorem Reachable.budget_cuts_jump : ∃ s : System, s.Reachable ∧
    (∀ settings : EngineSettings, 2 ≤ settings.maxSteps →
      ((Evaluator.ofSettings settings).tryEvaluate s.table default ⟨0⟩).result = .ok ⟨.drop, 2⟩) ∧
    ((Evaluator.ofSettings { EngineSettings.default with maxSteps := 0 }).tryEvaluate s.table default
      ⟨0⟩).result = .error (.stepBudgetExhausted "web" 1) := by
  have committed := (((create "filter" .initial 1).step .begin).applyAll
    [.addChain "input" (some .accept), .addChain "web" none,
      .placeRule ⟨0⟩ [.ofVerdict (.jump ⟨1⟩)] .back,
      .placeRule ⟨1⟩ [.ofVerdict (.final .drop)] .back]).commit
  obtain ⟨⟨visits, trace, ending, -, hall⟩, hsettings⟩ :=
    @Reachable.budget_cuts _ committed default ⟨0⟩ _ _ rfl rfl rfl _ (Or.inl rfl)
  refine ⟨_, committed, ?_, rfl⟩
  -- one evaluation tells the number of visits and the disposition
  obtain ⟨-, henough, hcut⟩ := hall Evaluator.plain
  rcases Nat.lt_or_ge Evaluator.plain.maxSteps visits.length with hlt | hle
  · obtain ⟨stop, -, hresult, -⟩ := hcut hlt
    have hended : (.ok (.byRule .drop) : Except EvalError Ending) = .error _ := hresult
    cases hended
  · have hresult : (.ok ⟨.drop, 2⟩ : Except EvalError Evaluation) = .ok ⟨_, visits.length⟩ :=
      (henough hle).2 rfl
    have hlength : 2 = visits.length := congrArg Evaluation.visited (Except.ok.inj hresult)
    intro settings hsteps
    have hmany : visits.length ≤ (Evaluator.ofSettings settings).maxSteps := by
      rw [(hsettings settings).1]
      omega
    exact (((hall (Evaluator.ofSettings settings)).2.1 hmany).2 rfl).trans hresult.symm

end System

end RuleChain
