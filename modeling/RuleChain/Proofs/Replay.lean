import RuleChain.Proofs.Evaluations
import RuleChain.Proofs.Isolation

/-! # A trace replays the traversal

  The events of a traced packet tell where the walk has been, and nothing else is needed to follow
  it: `Replay.step?` reads them one by one and keeps the chain, the number of the last event in it,
  and the places to come back to. `Journey.Explains` says what an event tells of the rules.

  The walk and the replay go on in step. A place of the walk stands in the chain of the replay, and
  has passed at least as many rules as the number of the last event, since a rule that mismatched
  leaves no event (`Frame.At`); so it is with the places that are saved.
-/

namespace RuleChain

/-! ### The automaton -/

/-- A chain and the number of the last event in it. -/
structure Replay.Place where
  chain : ChainId
  number : Nat
deriving DecidableEq

/-- How far the reading of a trace has come. -/
inductive Replay where
  /-- In a chain, with the places to come back to. -/
  | inside (place : Replay.Place) (stack : List Replay.Place)
  /-- The base chain was left, and its policy must follow. -/
  | left
  /-- The packet was decided, and nothing may follow. -/
  | over
deriving DecidableEq

/-- Where an event at a place leads. -/
def Replay.turn? (place : Replay.Place) (stack : List Replay.Place) :
    TraceKind → Verdict → Option Replay
  | .rule, .proceed => some (.inside place stack)
  | .rule, .jump target => some (.inside ⟨target, 0⟩ (place :: stack))
  | .rule, .goto target => some (.inside ⟨target, 0⟩ stack)
  | .rule, .final _ => some .over
  | .leave, _ =>
    match stack with
    | [] => some .left
    | back :: stack => some (.inside back stack)
  | _, _ => none

/-- Reads an event of a packet that was sent through `base`. -/
def Replay.step? (base : ChainId) : Replay → TraceEvent → Option Replay
  | .inside place stack, event =>
    match event.number with
    | none => none
    | some number =>
      if event.chainId = place.chain ∧ place.number < number then
        turn? ⟨place.chain, number⟩ stack event.kind event.verdict
      else none
  | .left, event => if event.kind = .policy ∧ event.chainId = base then some .over else none
  | .over, _ => none

/-- Reads a trace from the first rule of the base chain. -/
def Replay.run? (base : ChainId) (events : List TraceEvent) : Option Replay :=
  events.foldlM (step? base) (.inside ⟨base, 0⟩ [])

/-! ### What events tell -/

namespace Journey

/-- An event of a journey tells the truth about the chain that it names.

  - A handle and a number are those of one rule among the visible ones, counted from one.
  - The end of a chain has no handle, and is numbered behind the visible rules.
  - A policy has neither, and is that of the chain.
-/
inductive Explains (j : Journey) : TraceEvent → Prop where
  | rule {id : ChainId} {chain : Chain} {k : Nat} {rule : Rule} {verdict : Verdict}
    (found : j.chains.get? id = some chain)
    (visible : (chain.visibleRules j.generation)[k]? = some rule) :
    j.Explains ⟨j.table, chain.name, id, some rule.handle, some (k + 1),
      if verdict = .leave then .leave else .rule, verdict⟩
  | atEnd {id : ChainId} {chain : Chain} (found : j.chains.get? id = some chain) :
    j.Explains ⟨j.table, chain.name, id, none,
      some ((chain.visibleRules j.generation).length + 1), .leave, .proceed⟩
  | policy {id : ChainId} {chain : Chain} {info : BaseChain}
    (found : j.chains.get? id = some chain) (base : chain.base = some info) :
    j.Explains ⟨j.table, chain.name, id, none, none, .policy, .final info.policy.disposition⟩

/-- The events lead from one state of the replay to another, and all of them tell the truth. -/
structure Replays (j : Journey) (base : ChainId) (r : Replay) (events : List TraceEvent)
    (r' : Replay) : Prop where
  run : events.foldlM (Replay.step? base) r = some r'
  explained : ∀ event ∈ events, j.Explains event

section replays

variable {j : Journey} {base : ChainId} {r r' r'' : Replay} {events more : List TraceEvent}

theorem Replays.nil (j : Journey) (base : ChainId) (r : Replay) : j.Replays base r [] r :=
  ⟨rfl, fun _ hmem => nomatch hmem⟩

theorem Replays.append (h : j.Replays base r events r') (h' : j.Replays base r' more r'') :
    j.Replays base r (events ++ more) r'' := by
  constructor
  · rw [List.foldlM_append, h.run]
    exact h'.run
  · intro event hmem
    rcases List.mem_append.mp hmem with hmem | hmem
    · exact h.explained event hmem
    · exact h'.explained event hmem

theorem Replays.single {event : TraceEvent} (hstep : Replay.step? base r event = some r')
    (hexplains : j.Explains event) : j.Replays base r [event] r' := by
  constructor
  · rw [List.foldlM_cons, hstep]
    rfl
  · intro e hmem
    obtain rfl := List.mem_singleton.mp hmem
    exact hexplains

end replays

end Journey

/-! ### Places -/

/-- A place of the walk is at a place of the replay: the rules to come are what is left of the
visible ones, and the last event was that of a rule behind the place, if any. -/
structure Frame.At (j : Journey) (frame : Frame) (place : Replay.Place) : Prop where
  chain_eq : place.chain = frame.chain.id
  found : j.chains.get? frame.chain.id = some frame.chain
  rest_eq : frame.rest = (frame.chain.visibleRules j.generation).drop frame.passed
  passed_le : frame.passed ≤ (frame.chain.visibleRules j.generation).length
  number_le : place.number ≤ frame.passed

namespace Frame.At

variable {j : Journey} {frame : Frame} {place : Replay.Place}

/-- The first rule of a chain. -/
theorem enter {id : ChainId} {chain : Chain} (hid : chain.id = id)
    (hget : j.chains.get? id = some chain) : (j.enter chain).At j ⟨id, 0⟩ where
  chain_eq := hid.symm
  found := by
    rw [← hid] at hget
    exact hget
  rest_eq := List.drop_zero.symm
  passed_le := Nat.zero_le _
  number_le := Nat.zero_le _

/-- All visible rules of a chain that has none left are behind the place. -/
theorem passed_eq (h : frame.At j place) (hrest : frame.rest = []) :
    frame.passed = (frame.chain.visibleRules j.generation).length := by
  have hdrop := h.rest_eq.symm.trans hrest
  have hge := List.drop_eq_nil_iff.mp hdrop
  exact Nat.le_antisymm h.passed_le hge

/-- The place behind the next rule. -/
theorem behind (h : frame.At j place) {rule : Rule} {rest : List Rule}
    (hrest : frame.rest = rule :: rest) :
    (frame.chain.visibleRules j.generation)[frame.passed]? = some rule ∧
      { frame with rest, passed := frame.passed + 1 }.At j place := by
  have hdrop := h.rest_eq.symm.trans hrest
  have hvisible : (frame.chain.visibleRules j.generation)[frame.passed]? = some rule := by
    rw [← List.head?_drop, hdrop]
    rfl
  refine ⟨hvisible, h.chain_eq, h.found, ?_, ?_, Nat.le_succ_of_le h.number_le⟩
  · show rest = _
    rw [← List.tail_drop, hdrop]
    rfl
  · exact (List.getElem?_eq_some_iff.mp hvisible).1

/-- The event of the last rule behind a place counts all of them. -/
theorem numbered (h : frame.At j place) : frame.At j ⟨place.chain, frame.passed⟩ :=
  { h with number_le := Nat.le_refl _ }

end Frame.At

namespace Journey

/-- A rule that is about to be visited is the next one at a place of the replay. -/
structure Stop.At (j : Journey) (stop : Stop) (place : Replay.Place)
    (places : List Replay.Place) : Prop where
  behind : stop.behind.At j place
  visible : ∃ k, stop.behind.passed = k + 1 ∧ place.number ≤ k ∧
    (stop.behind.chain.visibleRules j.generation)[k]? = some stop.rule
  saved : List.Forall₂ (Frame.At j) stop.stack.frames places

variable {j : Journey} (base : ChainId)

/-! ### Leaving chains -/

/-- The end of a chain is explained, and leads to the place that was saved last. -/
theorem endEvent_replays {frame : Frame} {place : Replay.Place} (h : frame.At j place)
    (hrest : frame.rest = []) {places : List Replay.Place} {r : Replay}
    (hturn : Replay.turn? ⟨place.chain, frame.passed + 1⟩ places .leave .proceed = some r) :
    j.Replays base (.inside place places) [j.endEvent frame] r := by
  have hpassed := h.passed_eq hrest
  refine .single ?_ ?_
  · have hlt : place.number < frame.passed + 1 := Nat.lt_succ_of_le h.number_le
    simp only [Replay.step?, endEvent, h.chain_eq, hlt, and_self, ↓reduceIte]
    rw [h.chain_eq] at hturn
    exact hturn
  · unfold endEvent
    rw [hpassed]
    exact .atEnd h.found

/-- The replay before a rule is visited; the base chain is left if there is none. -/
inductive Before (j : Journey) : Option Stop → Replay → Prop where
  | left : j.Before none .left
  | stop {stop : Stop} {place : Replay.Place} {places : List Replay.Place}
    (at_place : stop.At j place places) : j.Before (some stop) (.inside place places)

theorem nextStop_replays {frame : Frame} {frames : List Frame} {place : Replay.Place}
    {places : List Replay.Place} (hframe : frame.At j place)
    (hframes : List.Forall₂ (Frame.At j) frames places) {events : List TraceEvent}
    {stop? : Option Stop} (hnext : j.nextStop frame frames = (events, stop?)) :
    ∃ r, j.Replays base (.inside place places) events r ∧ j.Before stop? r := by
  -- down the stack: a place that has no rule left is left for the one below
  induction hframes generalizing frame place events with
  | nil =>
    unfold nextStop at hnext
    split at hnext
    · next rule rest hrest =>
      obtain ⟨rfl, rfl⟩ := Prod.mk.inj hnext
      obtain ⟨hvisible, hbehind⟩ := hframe.behind hrest
      exact ⟨_, .nil j base _, .stop ⟨hbehind, ⟨_, rfl, hframe.number_le, hvisible⟩, .nil⟩⟩
    · next hrest =>
      obtain ⟨rfl, rfl⟩ := Prod.mk.inj hnext
      exact ⟨_, endEvent_replays base hframe hrest rfl, .left⟩
  | @cons back backPlace frames places hback hframes ih =>
    unfold nextStop at hnext
    split at hnext
    · next rule rest hrest =>
      obtain ⟨rfl, rfl⟩ := Prod.mk.inj hnext
      obtain ⟨hvisible, hbehind⟩ := hframe.behind hrest
      exact ⟨_, .nil j base _,
        .stop ⟨hbehind, ⟨_, rfl, hframe.number_le, hvisible⟩, .cons hback hframes⟩⟩
    · next hrest =>
      obtain ⟨rfl, rfl⟩ := Prod.mk.inj hnext
      have hleft : j.Replays base (.inside place (backPlace :: places)) [j.endEvent frame]
          (.inside backPlace places) := endEvent_replays base hframe hrest rfl
      obtain ⟨r, hreplays, hbefore⟩ := ih hback rfl
      exact ⟨r, hleft.append hreplays, hbefore⟩

/-! ### Visiting a rule -/

/-- The replay when a walk has ended; one that was given up may be anywhere. -/
inductive Ends : Except EvalError Ending → Replay → Prop where
  | byRule (disposition : Disposition) : Ends (.ok (.byRule disposition)) .over
  | byPolicy : Ends (.ok .byPolicy) .left
  | fault (error : EvalError) (r : Replay) : Ends (.error error) r

/-- The replay after a rule was visited. -/
inductive After (j : Journey) : Next → Replay → Prop where
  | go {frame : Frame} {stack : JumpStack Frame} {place : Replay.Place}
    {places : List Replay.Place} (frame_at : frame.At j place)
    (saved : List.Forall₂ (Frame.At j) stack.frames places) :
    j.After (.go frame stack) (.inside place places)
  | stop {result : Except EvalError Ending} {r : Replay} (ends : Ends result r) :
    j.After (.stop result) r

/-- The event of a rule is explained, and leads where its verdict tells. -/
theorem ruleEvent_replays {stop : Stop} {place : Replay.Place} {places : List Replay.Place}
    (h : stop.At j place places) {kind : TraceKind} {verdict : Verdict} {r : Replay}
    (hkind : kind = if verdict = .leave then .leave else .rule)
    (hturn : Replay.turn? ⟨place.chain, stop.behind.passed⟩ places kind verdict = some r) :
    j.Replays base (.inside place places) [j.ruleEvent stop.behind stop.rule kind verdict] r := by
  obtain ⟨k, hpassed, hnumber, hvisible⟩ := h.visible
  refine .single ?_ ?_
  · have hlt : place.number < stop.behind.passed := by omega
    simp only [Replay.step?, ruleEvent, h.behind.chain_eq, hlt, and_self, ↓reduceIte]
    rw [h.behind.chain_eq] at hturn
    exact hturn
  · unfold ruleEvent
    rw [hpassed, hkind]
    exact .rule h.behind.found hvisible

theorem follow_replays (hids : ∀ {id chain}, j.chains.get? id = some chain → chain.id = id)
    {stop : Stop} {place : Replay.Place} {places : List Replay.Place}
    (h : stop.At j place places) (verdict : Verdict) :
    ∃ r, j.Replays base (.inside place places) (j.follow stop verdict).1 r ∧
      j.After (j.follow stop verdict).2 r := by
  have hbehind := h.behind.numbered
  cases verdict with
  | mismatch => exact ⟨_, .nil j base _, .go h.behind h.saved⟩
  | proceed => exact ⟨_, ruleEvent_replays base h rfl rfl, .go hbehind h.saved⟩
  | final d => exact ⟨_, ruleEvent_replays base h rfl rfl, .stop (.byRule d)⟩
  | jump target =>
    unfold follow
    cases hget : j.chains.get? target with
    | none =>
      simp only [hget]
      exact ⟨_, .nil j base _, .stop (.fault _ _)⟩
    | some chain =>
      unfold JumpStack.push?
      by_cases hroom : stop.stack.size < JumpStack.capacity
      · simp only [hget, hroom, ↓reduceIte]
        exact ⟨_, ruleEvent_replays base h rfl rfl,
          .go (.enter (hids hget) hget) (.cons hbehind h.saved)⟩
      · -- the event is told before the stack is found to be full
        simp only [hget, hroom, ↓reduceIte]
        exact ⟨_, ruleEvent_replays base h rfl rfl, .stop (.fault _ _)⟩
  | goto target =>
    unfold follow
    cases hget : j.chains.get? target with
    | none =>
      simp only [hget]
      exact ⟨_, .nil j base _, .stop (.fault _ _)⟩
    | some chain =>
      simp only [hget]
      exact ⟨_, ruleEvent_replays base h rfl rfl, .go (.enter (hids hget) hget) h.saved⟩
  | leave =>
    obtain ⟨rule, behind, ⟨frames⟩⟩ := stop
    have hsaved := h.saved
    cases hsaved with
    | nil => exact ⟨_, ruleEvent_replays base h rfl rfl, .stop .byPolicy⟩
    | cons hback hframes => exact ⟨_, ruleEvent_replays base h rfl rfl, .go hback hframes⟩

/-! ### The walk -/

theorem walk_replays (hids : ∀ {id chain}, j.chains.get? id = some chain → chain.id = id)
    (left : Nat) {regs : Registers} {frame : Frame} {stack : JumpStack Frame}
    {place : Replay.Place} {places : List Replay.Place} (hframe : frame.At j place)
    (hframes : List.Forall₂ (Frame.At j) stack.frames places) :
    ∃ r, j.Replays base (.inside place places) (j.walk left regs frame stack).events r ∧
      Ends (j.walk left regs frame stack).result r := by
  induction left generalizing regs frame stack place places with
  | zero =>
    cases hnext : j.nextStop frame stack.frames with
    | mk events stop? =>
      obtain ⟨r, hreplays, hbefore⟩ := nextStop_replays base hframe hframes hnext
      cases hbefore with
      | left =>
        rw [walk_end hnext]
        exact ⟨_, hreplays.append (.nil j base _), .byPolicy⟩
      | stop hstop =>
        rw [walk_exhausted hnext]
        exact ⟨_, hreplays.append (.nil j base _), .fault _ _⟩
  | succ left ih =>
    cases hnext : j.nextStop frame stack.frames with
    | mk events stop? =>
      obtain ⟨r, hreplays, hbefore⟩ := nextStop_replays base hframe hframes hnext
      cases hbefore with
      | left =>
        rw [walk_end hnext]
        exact ⟨_, hreplays.append (.nil j base _), .byPolicy⟩
      | @stop stop place' places' hstop =>
        obtain ⟨r, hmore, hafter⟩ := follow_replays base hids hstop
          (Expr.evalAll stop.rule.exprs regs.reset j.packet).verdict
        cases hfollow : j.follow stop
            (Expr.evalAll stop.rule.exprs regs.reset j.packet).verdict with
        | mk more next =>
          rw [hfollow] at hmore hafter
          cases hafter with
          | go hplace hsaved =>
            obtain ⟨r, hrest, hends⟩ := ih hplace hsaved
            rw [walk_go hnext rfl hfollow]
            exact ⟨r, hreplays.append (hmore.append hrest), hends⟩
          | stop hends =>
            rw [walk_stop hnext rfl hfollow]
            exact ⟨r, hreplays.append (hmore.append (.nil j base _)), hends⟩

/-- The trace of a walk that was not given up is replayed to its end. -/
theorem told_replays (hids : ∀ {id chain}, j.chains.get? id = some chain → chain.id = id)
    {chain : Chain} {info : BaseChain} (hget : j.chains.get? base = some chain)
    (hinfo : chain.base = some info) {e : Evaluation}
    (hok : (j.start chain).evaluation info.policy = .ok e) :
    j.Replays base (.inside ⟨base, 0⟩ []) (Evaluator.told j chain info.policy) .over := by
  obtain ⟨r, hreplays, hends⟩ : ∃ r,
      j.Replays base (.inside ⟨base, 0⟩ []) (j.start chain).events r ∧ Ends (j.start chain).result r :=
    walk_replays base hids j.budget (.enter (hids hget) hget) .nil
  unfold Evaluator.told
  unfold Walk.evaluation at hok
  cases hresult : (j.start chain).result with
  | error error =>
    rw [hresult] at hok
    cases hok
  | ok ending =>
    rw [hresult] at hends
    cases hends with
    | byRule d =>
      simp only [hresult]
      exact hreplays
    | byPolicy =>
      -- the base chain is left, and the policy that follows is its own
      simp only [hresult]
      have hchain : chain.id = base := hids hget
      refine hreplays.append (.single ?_ ?_)
      · simp only [Replay.step?, policyEvent, hchain, and_self, ↓reduceIte]
      · unfold policyEvent
        rw [hchain]
        exact .policy hget hinfo

end Journey

/-! ### Traces -/

namespace System

variable {s : System}

/-- The trace of a packet that was not given up can be replayed: it leads from the first rule of
the base chain to a verdict, and no event follows that. All events tell the truth about the chains
as the generation of the walk shows them. -/
theorem Reachable.trace_replays (h : s.Reachable) {ev : Evaluator} {packet : Packet}
    {base : ChainId} {chain : Chain} {info : BaseChain} {e : Evaluation}
    (hbase : Evaluator.baseChain? s.table base = some (chain, info)) (hns : info.ns = packet.ns)
    (htraced : packet.traced = true) (henabled : ev.traceEnabled = true)
    (hok : (ev.tryEvaluate s.table packet base).result = .ok e) :
    Replay.run? base (ev.tryEvaluate s.table packet base).events = some .over ∧
      ∀ event ∈ (ev.tryEvaluate s.table packet base).events,
        (ev.journey s.table packet).Explains event := by
  obtain ⟨hget, hinfo⟩ := Evaluator.baseChain?_eq_some_iff.mp hbase
  have hids : ∀ {id chain}, (ev.journey s.table packet).chains.get? id = some chain →
      chain.id = id := h.inv.wellFormed.id_eq
  rw [Evaluator.result_tryEvaluate, hbase] at hok
  simp only [hns, ne_eq, not_true_eq_false, ↓reduceIte] at hok
  have hreplays := Journey.told_replays base hids hget hinfo hok
  rw [Evaluator.events_tryEvaluate, hbase]
  simp only [hns, htraced, henabled, Bool.and_self, and_self, ↓reduceIte]
  exact ⟨hreplays.run, hreplays.explained⟩

/-- A jump, a return by a rule, the end of the base chain and its policy. -/
theorem Reachable.trace_replays_jump : ∃ (s : System) (chain : Chain) (info : BaseChain)
    (ev : Evaluator) (packet : Packet), s.Reachable ∧
    Evaluator.baseChain? s.table ⟨0⟩ = some (chain, info) ∧ info.ns = packet.ns ∧
    packet.traced = true ∧ ev.traceEnabled = true ∧
    (ev.tryEvaluate s.table packet ⟨0⟩).result = .ok ⟨.accept, 2⟩ ∧
    (ev.tryEvaluate s.table packet ⟨0⟩).events.map (fun event => (event.kind, event.number)) =
      [(.rule, some 1), (.leave, some 1), (.leave, some 2), (.policy, none)] ∧
    Replay.run? ⟨0⟩ (ev.tryEvaluate s.table packet ⟨0⟩).events = some .over ∧
    ∀ event ∈ (ev.tryEvaluate s.table packet ⟨0⟩).events,
      (ev.journey s.table packet).Explains event := by
  have committed := (((create "filter" .initial 1).step .begin).applyAll
    [.addChain "input" (some .accept), .addChain "web" none,
      .placeRule ⟨0⟩ [.ofVerdict (.jump ⟨1⟩)] .back,
      .placeRule ⟨1⟩ [.ofVerdict .leave] .back]).commit
  obtain ⟨hrun, hexplained⟩ := @Reachable.trace_replays _ committed
    { Evaluator.plain with traceEnabled := true } { (default : Packet) with traced := true } ⟨0⟩
    _ _ ⟨.accept, 2⟩ rfl rfl rfl rfl rfl
  exact ⟨_, _, _, _, _, committed, rfl, rfl, rfl, rfl, rfl, rfl, hrun, hexplained⟩

end System

end RuleChain
