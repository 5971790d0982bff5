import RuleChain.Proofs.Evaluations
import RuleChain.Proofs.Meaning
import RuleChain.Proofs.Representation

/-! # Journeys that see the same

  Two journeys are alike in some chains if they see the same in these chains and no rule leads out
  of them. The tables behind them may be different: rules that the generations do not show, their
  marks, and all other chains do not matter.

  Two walks that start at the same chain then go on in step. At each visit they stand at rules with
  the same handle and the same expressions, which are numbered alike, and they have saved places
  that are alike. So they give the same result with the same events.
-/

namespace RuleChain

/-- The journeys see the same in the chains inside, and no rule leads out of them. -/
structure Journey.Alike (j j' : Journey) (inside : ChainId → Prop) : Prop where
  table_eq : j'.table = j.table
  packet_eq : j'.packet = j.packet
  budget_eq : j'.budget = j.budget
  sees_eq : ∀ {id}, inside id → j'.sees id = j.sees id
  closed : ∀ {id target kind}, inside id → (target, kind) ∈ j.sees.edges id → inside target
  id_eq : ∀ {id chain}, j.chains.get? id = some chain → chain.id = id
  id_eq' : ∀ {id chain}, j'.chains.get? id = some chain → chain.id = id

/-- The places are in chains of the same name and id, with the same rules before and behind them,
and the rules to come are those of a chain inside. -/
structure Frame.Alike (p : PlainMap) (inside : ChainId → Prop) (frame frame' : Frame) : Prop where
  name_eq : frame'.chain.name = frame.chain.name
  id_eq : frame'.chain.id = frame.chain.id
  plain_eq : frame'.plain = frame.plain
  passed_eq : frame'.passed = frame.passed
  inside : ∃ id, inside id ∧ ∀ rule ∈ frame.plain, rule ∈ p.rules id

/-- The rules about to be visited are the same, and so is what is left behind. -/
structure Journey.Stop.Alike (p : PlainMap) (inside : ChainId → Prop) (stop stop' : Stop) :
    Prop where
  rule_eq : stop'.rule.plain = stop.rule.plain
  rule_inside : ∃ id, inside id ∧ stop.rule.plain ∈ p.rules id
  behind : stop.behind.Alike p inside stop'.behind
  stack : List.Forall₂ (Frame.Alike p inside) stop.stack.frames stop'.stack.frames

namespace Journey.Alike

variable {j j' : Journey} {inside : ChainId → Prop} {frame frame' : Frame}
  {frames frames' : List Frame} {stop stop' : Stop}

/-! ### Places -/

/-- A chain inside is there for both journeys or for none, and they enter it alike. -/
theorem enter (h : j.Alike j' inside) {id : ChainId} (hid : inside id) :
    (j.chains.get? id = none ∧ j'.chains.get? id = none) ∨
    ∃ chain chain', j.chains.get? id = some chain ∧ j'.chains.get? id = some chain' ∧
      chain'.base.map (·.policy) = chain.base.map (·.policy) ∧
      (j.enter chain).Alike j.sees inside (j'.enter chain') := by
  have hsees : (j'.chains.get? id).map (·.plain j'.generation) =
      (j.chains.get? id).map (·.plain j.generation) := h.sees_eq hid
  cases hget : j.chains.get? id with
  | none =>
    rw [hget] at hsees
    exact Or.inl ⟨rfl, Option.map_eq_none_iff.mp hsees⟩
  | some chain =>
    rw [hget] at hsees
    obtain ⟨chain', hget', hplain⟩ := Option.map_eq_some_iff.mp hsees
    refine Or.inr ⟨chain, chain', rfl, hget', congrArg PlainChain.policy hplain, ?_⟩
    constructor
    · exact congrArg PlainChain.name hplain
    · exact (h.id_eq' hget').trans (h.id_eq hget).symm
    · exact congrArg PlainChain.rules hplain
    · rfl
    · refine ⟨id, hid, ?_⟩
      rw [plain_enter hget]
      exact fun rule hrule => hrule

theorem endEvent_eq (h : j.Alike j' inside) (hframe : frame.Alike j.sees inside frame') :
    j'.endEvent frame' = j.endEvent frame := by
  unfold endEvent
  rw [h.table_eq, hframe.name_eq, hframe.id_eq, hframe.passed_eq]

theorem ruleEvent_eq (h : j.Alike j' inside) (hstop : stop.Alike j.sees inside stop')
    (kind : TraceKind) (verdict : Verdict) :
    j'.ruleEvent stop'.behind stop'.rule kind verdict =
      j.ruleEvent stop.behind stop.rule kind verdict := by
  have hhandle : stop'.rule.handle = stop.rule.handle := congrArg Prod.fst hstop.rule_eq
  unfold ruleEvent
  rw [h.table_eq, hstop.behind.name_eq, hstop.behind.id_eq, hstop.behind.passed_eq, hhandle]

/-- If one of the places has no rule left, neither has the other one. -/
theorem rest_eq_nil (hframe : frame.Alike j.sees inside frame') (hrest : frame.rest = []) :
    frame'.rest = [] := by
  have hsame := hframe.plain_eq
  unfold Frame.plain at hsame
  rw [hrest] at hsame
  exact List.map_eq_nil_iff.mp hsame

/-- If one of the places has a rule left, both stand at the same rule. -/
theorem stop_alike (hframe : frame.Alike j.sees inside frame')
    (hframes : List.Forall₂ (Frame.Alike j.sees inside) frames frames') {rule : Rule}
    {rest : List Rule} (hrest : frame.rest = rule :: rest) :
    ∃ rule' rest', frame'.rest = rule' :: rest' ∧
      Stop.Alike j.sees inside ⟨rule, { frame with rest, passed := frame.passed + 1 }, ⟨frames⟩⟩
        ⟨rule', { frame' with rest := rest', passed := frame'.passed + 1 }, ⟨frames'⟩⟩ := by
  have hplain : frame'.rest.map Rule.plain = rule.plain :: rest.map Rule.plain := by
    have hsame := hframe.plain_eq
    unfold Frame.plain at hsame
    rw [hsame, hrest, List.map_cons]
  obtain ⟨rule', rest', hrest', hrule, hbehind⟩ := List.map_eq_cons_iff.mp hplain
  obtain ⟨id, hid, hrules⟩ := hframe.inside
  unfold Frame.plain at hrules
  rw [hrest, List.map_cons] at hrules
  refine ⟨rule', rest', hrest', hrule, ⟨id, hid, hrules _ List.mem_cons_self⟩, ?_, hframes⟩
  constructor
  · exact hframe.name_eq
  · exact hframe.id_eq
  · exact hbehind
  · exact congrArg (· + 1) hframe.passed_eq
  · exact ⟨id, hid, fun r hr => hrules r (List.mem_cons_of_mem _ hr)⟩

/-- Leaving chains leads to the end of both walks, or to the same rule. -/
theorem nextStop (h : j.Alike j' inside) (hframe : frame.Alike j.sees inside frame')
    (hframes : List.Forall₂ (Frame.Alike j.sees inside) frames frames') :
    (∃ events, j.nextStop frame frames = (events, none) ∧
      j'.nextStop frame' frames' = (events, none)) ∨
    ∃ events stop stop', j.nextStop frame frames = (events, some stop) ∧
      j'.nextStop frame' frames' = (events, some stop') ∧ stop.Alike j.sees inside stop' := by
  -- down both stacks, as long as no rule is left
  induction hframes generalizing frame frame' with
  | nil =>
    unfold Journey.nextStop
    cases hrest : frame.rest with
    | nil =>
      rw [rest_eq_nil hframe hrest, h.endEvent_eq hframe]
      exact Or.inl ⟨_, rfl, rfl⟩
    | cons rule rest =>
      obtain ⟨rule', rest', hrest', hstop⟩ := stop_alike hframe .nil hrest
      rw [hrest']
      exact Or.inr ⟨_, _, _, rfl, rfl, hstop⟩
  | @cons back back' frames frames' hback hframes ih =>
    unfold Journey.nextStop
    cases hrest : frame.rest with
    | nil =>
      rw [rest_eq_nil hframe hrest, h.endEvent_eq hframe]
      rcases ih hback with ⟨events, hend, hend'⟩ | ⟨events, stop, stop', hnext, hnext', hstop⟩
      · simp only [hend, hend']
        exact Or.inl ⟨_, rfl, rfl⟩
      · simp only [hnext, hnext']
        exact Or.inr ⟨_, _, _, rfl, rfl, hstop⟩
    | cons rule rest =>
      obtain ⟨rule', rest', hrest', hstop⟩ := stop_alike hframe (.cons hback hframes) hrest
      rw [hrest']
      exact Or.inr ⟨_, _, _, rfl, rfl, hstop⟩

/-! ### Verdicts -/

/-- Following the same verdict leads to places that are alike, or to the same end. -/
theorem follow (h : j.Alike j' inside) (hstop : stop.Alike j.sees inside stop')
    {verdict : Verdict} (hverdict : ∀ target, verdict.target? = some target →
      target ∈ stop.rule.exprs.filterMap Expr.target?) :
    (∃ more place place' stack stack', j.follow stop verdict = (more, .go place stack) ∧
      j'.follow stop' verdict = (more, .go place' stack') ∧
      place.Alike j.sees inside place' ∧
      List.Forall₂ (Frame.Alike j.sees inside) stack.frames stack'.frames) ∨
    ∃ more result, j.follow stop verdict = (more, .stop result) ∧
      j'.follow stop' verdict = (more, .stop result) := by
  have hevent := h.ruleEvent_eq hstop
  have hname : stop'.behind.chain.name = stop.behind.chain.name := hstop.behind.name_eq
  have hhandle : stop'.rule.handle = stop.rule.handle := congrArg Prod.fst hstop.rule_eq
  have hsize : stop'.stack.size = stop.stack.size := hstop.stack.length_eq.symm
  -- a target of a rule inside is inside
  have htarget : ∀ target kind, verdict.target? = some (target, kind) → inside target := by
    intro target kind heq
    obtain ⟨id, hid, hrule⟩ := hstop.rule_inside
    exact h.closed hid (List.mem_flatMap.mpr ⟨_, hrule, hverdict _ heq⟩)
  cases verdict with
  | mismatch => exact Or.inl ⟨_, _, _, _, _, rfl, rfl, hstop.behind, hstop.stack⟩
  | proceed =>
    refine Or.inl ⟨_, _, _, _, _, rfl, ?_, hstop.behind, hstop.stack⟩
    unfold Journey.follow
    simp only [hevent]
  | final d =>
    refine Or.inr ⟨_, _, rfl, ?_⟩
    unfold Journey.follow
    simp only [hevent]
  | jump target =>
    unfold Journey.follow
    simp only [hevent, hname, hhandle]
    rcases h.enter (htarget target .jump rfl) with ⟨hnone, hnone'⟩ | ⟨chain, chain', hget, hget',
      -, hplace⟩
    · simp only [hnone, hnone']
      exact Or.inr ⟨_, _, rfl, rfl⟩
    · simp only [hget, hget']
      -- the stacks are of the same size, so both have room or none has
      unfold JumpStack.push?
      rw [hsize]
      by_cases hroom : stop.stack.size < JumpStack.capacity
      · simp only [hroom, ↓reduceIte]
        exact Or.inl ⟨_, _, _, _, _, rfl, rfl, hplace, .cons hstop.behind hstop.stack⟩
      · simp only [hroom, ↓reduceIte]
        exact Or.inr ⟨_, _, rfl, rfl⟩
  | goto target =>
    unfold Journey.follow
    simp only [hevent, hname, hhandle]
    rcases h.enter (htarget target .goto rfl) with ⟨hnone, hnone'⟩ | ⟨chain, chain', hget, hget',
      -, hplace⟩
    · simp only [hnone, hnone']
      exact Or.inr ⟨_, _, rfl, rfl⟩
    · simp only [hget, hget']
      exact Or.inl ⟨_, _, _, _, _, rfl, rfl, hplace, hstop.stack⟩
  | leave =>
    unfold Journey.follow JumpStack.pop?
    simp only [hevent]
    have hstack := hstop.stack
    generalize stop.stack.frames = frames at hstack
    generalize stop'.stack.frames = frames' at hstack
    cases hstack with
    | nil => exact Or.inr ⟨_, _, rfl, rfl⟩
    | cons hback hframes => exact Or.inl ⟨_, _, _, _, _, rfl, rfl, hback, hframes⟩

/-! ### Walks -/

/-- Two walks go on in step, whatever the registers hold and however much may be visited. -/
theorem walk_eq (h : j.Alike j' inside) (hframe : frame.Alike j.sees inside frame')
    (hframes : List.Forall₂ (Frame.Alike j.sees inside) frames frames') (left : Nat)
    (regs : Registers) :
    j'.walk left regs frame' ⟨frames'⟩ = j.walk left regs frame ⟨frames⟩ := by
  induction left generalizing frame frame' frames frames' regs with
  | zero =>
    rcases h.nextStop hframe hframes with ⟨events, hend, hend'⟩ | ⟨events, stop, stop', hnext,
      hnext', hstop⟩
    · rw [walk_end hend, walk_end hend']
    · rw [walk_exhausted hnext, walk_exhausted hnext', hstop.behind.name_eq, h.budget_eq]
  | succ left ih =>
    rcases h.nextStop hframe hframes with ⟨events, hend, hend'⟩ | ⟨events, stop, stop', hnext,
      hnext', hstop⟩
    · rw [walk_end hend, walk_end hend']
    · -- both rules have the same expressions and give the same verdict
      have hexprs : stop'.rule.exprs = stop.rule.exprs := congrArg Prod.snd hstop.rule_eq
      have heval : Expr.evalAll stop'.rule.exprs regs.reset j'.packet =
          Expr.evalAll stop.rule.exprs regs.reset j.packet := by rw [hexprs, h.packet_eq]
      rcases h.follow hstop (j.target_mem regs stop.rule) with ⟨more, place, place', stack, stack',
        hgo, hgo', hplace, hstack⟩ | ⟨more, result, hend, hend'⟩
      · rw [walk_go hnext rfl hgo, walk_go hnext' heval hgo']
        exact congrArg (fun walk => (walk.visit.after more).after events) (ih hplace hstack _)
      · rw [walk_stop hnext rfl hend, walk_stop hnext' heval hend']

theorem start_eq (h : j.Alike j' inside) {chain chain' : Chain}
    (henter : (j.enter chain).Alike j.sees inside (j'.enter chain')) :
    j'.start chain' = j.start chain := by
  unfold start
  rw [h.budget_eq]
  exact h.walk_eq henter .nil _ _

theorem told_eq (h : j.Alike j' inside) {chain chain' : Chain}
    (henter : (j.enter chain).Alike j.sees inside (j'.enter chain')) (policy : Policy) :
    Evaluator.told j' chain' policy = Evaluator.told j chain policy := by
  have hname : chain'.name = chain.name := henter.name_eq
  have hid : chain'.id = chain.id := henter.id_eq
  unfold Evaluator.told policyEvent
  rw [h.start_eq henter, h.table_eq, hname, hid]

/-! ### Evaluations -/

variable {ev : Evaluator} {t t' : Table} {packet : Packet} {base : ChainId}

/-- A chain inside is a base chain for both journeys, with the same policy, or for none. -/
theorem baseChain? (h : (ev.journey t packet).Alike (ev.journey t' packet) inside)
    (hbase : inside base) :
    (Evaluator.baseChain? t base = none ∧ Evaluator.baseChain? t' base = none) ∨
    ∃ chain info chain' info', Evaluator.baseChain? t base = some (chain, info) ∧
      Evaluator.baseChain? t' base = some (chain', info') ∧ info'.policy = info.policy ∧
      ((ev.journey t packet).enter chain).Alike (ev.journey t packet).sees inside
        ((ev.journey t' packet).enter chain') := by
  rcases h.enter hbase with ⟨hnone, hnone'⟩ | ⟨chain, chain', hget, hget', hpolicy, henter⟩
  · refine Or.inl ⟨Evaluator.baseChain?_eq_none_iff.mpr ?_, Evaluator.baseChain?_eq_none_iff.mpr ?_⟩
    · rintro ⟨chain, hget, -⟩
      cases hnone.symm.trans hget
    · rintro ⟨chain, hget, -⟩
      cases hnone'.symm.trans hget
  · cases hinfo : chain.base with
    | none =>
      rw [hinfo] at hpolicy
      have hinfo' : chain'.base = none := Option.map_eq_none_iff.mp hpolicy
      have hnot : ∀ {c : Chain}, c.base = none → c.isBase ≠ true := by
        intro c hc
        rw [Chain.isBase, hc]
        decide
      refine Or.inl ⟨Evaluator.baseChain?_eq_none_iff.mpr ?_,
        Evaluator.baseChain?_eq_none_iff.mpr ?_⟩
      · rintro ⟨c, hc, hbase⟩
        cases hget.symm.trans hc
        exact hnot hinfo hbase
      · rintro ⟨c, hc, hbase⟩
        cases hget'.symm.trans hc
        exact hnot hinfo' hbase
    | some info =>
      rw [hinfo] at hpolicy
      obtain ⟨info', hinfo', heq⟩ := Option.map_eq_some_iff.mp hpolicy
      exact Or.inr ⟨chain, info, chain', info',
        Evaluator.baseChain?_eq_some_iff.mpr ⟨hget, hinfo⟩,
        Evaluator.baseChain?_eq_some_iff.mpr ⟨hget', hinfo'⟩, heq, henter⟩

/-- The evaluations of a packet are the same, and both tables count it or none does. -/
theorem tryEvaluate (h : (ev.journey t packet).Alike (ev.journey t' packet) inside)
    (hbase : inside base)
    (hns : ∀ {id chain chain'}, t.chains.get? id = some chain → t'.chains.get? id = some chain' →
      chain'.base.map BaseChain.ns = chain.base.map BaseChain.ns) :
    (ev.tryEvaluate t' packet base).result = (ev.tryEvaluate t packet base).result ∧
    (ev.tryEvaluate t' packet base).events = (ev.tryEvaluate t packet base).events ∧
    ev.counts t' packet base = ev.counts t packet base := by
  rw [Evaluator.result_tryEvaluate, Evaluator.result_tryEvaluate, Evaluator.events_tryEvaluate,
    Evaluator.events_tryEvaluate]
  unfold Evaluator.counts
  rcases h.baseChain? hbase with ⟨hnone, hnone'⟩ | ⟨chain, info, chain', info', hfound, hfound',
    hpolicy, henter⟩
  · rw [hnone, hnone']
    exact ⟨rfl, rfl, rfl⟩
  · obtain ⟨hget, hinfo⟩ := Evaluator.baseChain?_eq_some_iff.mp hfound
    obtain ⟨hget', hinfo'⟩ := Evaluator.baseChain?_eq_some_iff.mp hfound'
    have hsame : info'.ns = info.ns := by
      have hboth := hns hget hget'
      rw [hinfo, hinfo'] at hboth
      exact Option.some.inj hboth
    simp only [hfound, hfound', hsame, hpolicy, h.start_eq henter, h.told_eq henter]
    exact ⟨trivial, trivial, trivial⟩

end Journey.Alike

end RuleChain
