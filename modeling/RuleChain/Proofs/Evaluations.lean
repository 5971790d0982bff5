import RuleChain.Proofs.Safety

/-! # What an evaluation leaves behind

  Besides its result, an evaluation leaves the trace of its packet and a table in which at most one
  packet was counted. Both are told by the walk: the trace is that of the walk, with the policy at
  its end if the policy decided, and only then the packet is counted.
-/

namespace RuleChain

/-- A reader that comes and goes leaves nothing. -/
theorem Table.leave_enter (t : Table) : t.enter.leave t.generation = t := by
  have hreaders : (t.readers.modify t.generation (· + 1)).modify t.generation (· - 1) =
      t.readers := by
    cases t.generation <;> simp [PerGeneration.modify, PerGeneration.set, PerGeneration.get]
  unfold enter leave
  simp only [hreaders]

namespace Evaluator

/-- Whether the policy decides, so that the packet is counted. -/
def counts (ev : Evaluator) (t : Table) (packet : Packet) (base : ChainId) : Bool :=
  match baseChain? t base with
  | none => false
  | some (chain, info) =>
    decide (info.ns = packet.ns) &&
      match ((ev.journey t packet).start chain).result with
      | .ok .byPolicy => true
      | _ => false

/-- The table with a packet counted. -/
def counted (ev : Evaluator) (t : Table) (packet : Packet) (base : ChainId) : Table :=
  t.modifyChain base (·.record ev.worker (UInt64.ofNat packet.data.length))

/-- What a walk tells of a packet, with the policy at the end if it decided. -/
def told (j : Journey) (chain : Chain) (policy : Policy) : List TraceEvent :=
  let walk := j.start chain
  match walk.result with
  | .ok .byPolicy => walk.events ++ [j.policyEvent chain policy]
  | _ => walk.events

variable (ev : Evaluator) (t : Table) (packet : Packet) (base : ChainId)

theorem table_tryEvaluate :
    (ev.tryEvaluate t packet base).table =
      if ev.counts t packet base then ev.counted t packet base else t := by
  have henter : baseChain? t.enter base = baseChain? t base := rfl
  have hstart : ∀ chain, (ev.journey t.enter packet).startBy .direct chain =
      (ev.journey t packet).start chain := fun _ => rfl
  have hcounted : (t.enter.modifyChain base (·.record ev.worker
      (UInt64.ofNat packet.data.length))).leave t.generation = ev.counted t packet base :=
    congrArg (fun t : Table => t.modifyChain base (·.record ev.worker
      (UInt64.ofNat packet.data.length))) t.leave_enter
  unfold tryEvaluate tryEvaluateBy counts
  simp only [henter, hstart, hcounted, t.leave_enter, Id.run, bind, pure]
  cases baseChain? t base with
  | none => rfl
  | some found =>
    obtain ⟨chain, info⟩ := found
    by_cases hns : info.ns = packet.ns
    · simp only [hns, ne_eq, not_true_eq_false, ↓reduceIte, decide_true, Bool.true_and]
      cases ((ev.journey t packet).start chain).result with
      | error e => rfl
      | ok ending => cases ending <;> rfl
    · simp only [hns, ne_eq, not_false_eq_true, ↓reduceIte, decide_false, Bool.false_and,
        Bool.false_eq_true]

theorem events_tryEvaluate :
    (ev.tryEvaluate t packet base).events =
      match baseChain? t base with
      | none => []
      | some (chain, info) =>
        if info.ns = packet.ns ∧ (packet.traced && ev.traceEnabled) = true then
          told (ev.journey t packet) chain info.policy
        else [] := by
  have henter : baseChain? t.enter base = baseChain? t base := rfl
  have hstart : ∀ chain, (ev.journey t.enter packet).startBy .direct chain =
      (ev.journey t packet).start chain := fun _ => rfl
  unfold tryEvaluate tryEvaluateBy told
  simp only [henter, hstart, Id.run, bind, pure]
  cases baseChain? t base with
  | none => rfl
  | some found =>
    obtain ⟨chain, info⟩ := found
    by_cases hns : info.ns = packet.ns
    · simp only [hns, ne_eq, not_true_eq_false, ↓reduceIte, true_and]
      cases ((ev.journey t packet).start chain).result with
      | error e => rfl
      | ok ending => cases ending <;> rfl
    · simp only [hns, ne_eq, not_false_eq_true, ↓reduceIte, false_and]

variable {t packet base}

/-- An evaluation that was given up counts nothing. -/
theorem table_of_error {e : EvalError} (h : (ev.tryEvaluate t packet base).result = .error e) :
    (ev.tryEvaluate t packet base).table = t := by
  rw [table_tryEvaluate, if_neg]
  rw [result_tryEvaluate] at h
  unfold counts
  cases hfound : baseChain? t base with
  | none => exact Bool.false_ne_true
  | some found =>
    obtain ⟨chain, info⟩ := found
    simp only [hfound] at h
    split at h
    · cases h
    · have hresult := Walk.evaluation_eq_error_iff.mp h
      simp [hresult]

section base

variable {chain : Chain} {info : BaseChain} (hget : t.chains.get? base = some chain)
  (hinfo : chain.base = some info) (hns : info.ns = packet.ns)

include hget hinfo hns

/-- At a base chain of the packet's namespace an evaluation is a walk. -/
theorem result_of_base : (ev.tryEvaluate t packet base).result =
    ((ev.journey t packet).start chain).evaluation info.policy := by
  rw [result_tryEvaluate, baseChain?_eq_some_iff.mpr ⟨hget, hinfo⟩]
  exact if_neg fun hne => hne hns

theorem events_of_base : (ev.tryEvaluate t packet base).events =
    if (packet.traced && ev.traceEnabled) = true then told (ev.journey t packet) chain info.policy
    else [] := by
  rw [events_tryEvaluate, baseChain?_eq_some_iff.mpr ⟨hget, hinfo⟩]
  simp only [hns, true_and]

end base

end Evaluator

end RuleChain
