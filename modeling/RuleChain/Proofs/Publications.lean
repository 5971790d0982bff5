import RuleChain.Proofs.Statistics

/-! # Published counters

  A base chain has counters of its own and loses them when it is deleted. The metrics that counters
  are published as belong to a name, and they only grow. After a commit the name of a deleted chain
  may be given to another one, whose packets are then hidden behind those of the first.

  - `Session.publishedAs` lists what calls publish under a name, with the chain that counted it.
  - `Session.published_metrics` says that a metric is the largest number of this list, and when that
    is the number of the chain that has the name now.
-/

namespace RuleChain

/-! ### Metrics, one by one -/

/-- What is left of a counter that is raised to totals, one after the other. -/
def Metrics.raised (old : Option Nat) (totals : List Nat) : Option Nat :=
  (old.toList ++ totals).max?

namespace Metrics

variable {metrics : Metrics} {key : MetricKey}

theorem get?_cons (k : MetricKey) (value : Nat) (rest : Metrics) :
    get? ((k, value) :: rest) key = if k = key then some value else get? rest key := by
  unfold get?
  rw [List.find?_cons]
  by_cases h : k = key
  · simp [h]
  · rw [beq_eq_false_iff_ne.mpr h, if_neg h]

theorem get?_update (key' : MetricKey) (f : Nat → Nat) :
    (metrics.update key f).get? key' =
      if key = key' then some (f ((metrics.get? key).getD 0)) else metrics.get? key' := by
  induction metrics with
  | nil =>
    rw [update, get?_cons]
    rfl
  | cons metric rest ih =>
    obtain ⟨k, value⟩ := metric
    rw [update]
    by_cases hk : k = key
    · by_cases hkey : key = key'
      · simp [hk, hkey, get?_cons]
      · simp [hk, hkey, get?_cons]
    · rw [if_neg hk, get?_cons, get?_cons, get?_cons, if_neg hk, ih]
      by_cases hkey : k = key'
      · have hne : key ≠ key' := fun h => hk (hkey.trans h.symm)
        rw [if_pos hkey, if_neg hne, if_pos hkey]
      · rw [if_neg hkey, if_neg hkey]

theorem get?_raise (total : Nat) :
    (metrics.raise key total).get? key = raised (metrics.get? key) [total] := by
  rw [raise, get?_update, if_pos rfl]
  cases metrics.get? key with
  | none => simp [raised]
  | some value => rfl

theorem get?_update_of_ne {key' : MetricKey} (hne : key.name ≠ key'.name) (f : Nat → Nat) :
    (metrics.update key f).get? key' = metrics.get? key' := by
  rw [get?_update, if_neg fun h => hne (congrArg MetricKey.name h)]

theorem raised_nil (old : Option Nat) : raised old [] = old := by
  cases old <;> rfl

theorem raised_append (old : Option Nat) (first second : List Nat) :
    raised (raised old first) second = raised old (first ++ second) := by
  unfold raised
  rw [← List.append_assoc]
  cases old.toList ++ first with
  | nil => rfl
  | cons total rest => simp [List.max?, List.foldl_append]

end Metrics

/-! ### What base chains count -/

/-- One of the numbers that a base chain counts. -/
inductive Tally where
  | packets
  | bytes
deriving DecidableEq

namespace Tally

/-- The metric that the number is published as. -/
def metric : Tally → EngineMetric
  | .packets => .chainPackets
  | .bytes => .chainBytes

def key (tally : Tally) (table chain : String) : MetricKey :=
  tally.metric.key [("table", table), ("chain", chain)]

/-- The number in the counters of a chain. -/
def of : Tally → Counters → Nat
  | .packets, counters => counters.packets.toNat
  | .bytes, counters => counters.bytes.toNat

/-- The number that packets of some lengths add up to. -/
def sum : Tally → List Nat → Nat
  | .packets, lengths => lengths.length
  | .bytes, lengths => lengths.sum

theorem key_inj {tally tally' : Tally} {table chain chain' : String} :
    tally.key table chain = tally'.key table chain' ↔ tally = tally' ∧ chain = chain' := by
  cases tally <;> cases tally' <;> simp [key, metric, EngineMetric.key, EngineMetric.name]

/-- A sum that fits a machine word is what is counted. -/
theorem of_ofLengths {tally : Tally} {lengths : List Nat}
    (h : tally.sum lengths < UInt64.size) : tally.of (.ofLengths lengths) = tally.sum lengths := by
  cases tally with
  | packets => exact UInt64.toNat_ofNat_of_lt h
  | bytes => exact UInt64.toNat_ofNat_of_lt h

theorem sum_le_of_prefix {tally : Tally} {lengths lengths' : List Nat}
    (h : lengths <+: lengths') : tally.sum lengths ≤ tally.sum lengths' := by
  obtain ⟨rest, rfl⟩ := h
  cases tally with
  | packets => simp [sum]
  | bytes => simp [sum]

end Tally

/-! ### Notices of counters -/

/-- Whether a notice is of the counters of a chain. -/
def Notice.isCount : Notice → Bool
  | .counted .. => true
  | _ => false

/-- The counters of the base chains with a name, and the ids of the chains. -/
def Table.countersOf (t : Table) (name : String) : List (ChainId × Counters) :=
  t.chains.toList.filterMap fun chain =>
    if chain.name = name then chain.counters?.map ((chain.id, ·)) else none

section record

variable {metrics : Metrics} {tally : Tally} {table name : String}

theorem get?_record_counted (chain : String) (counters : Counters) :
    (Notice.record metrics (.counted table chain counters)).get? (tally.key table name) =
      if chain = name then Metrics.raised (metrics.get? (tally.key table name)) [tally.of counters]
      else metrics.get? (tally.key table name) := by
  have hraise (metrics : Metrics) (tally' : Tally) (total : Nat) :
      (metrics.raise (tally'.key table chain) total).get? (tally.key table name) =
        if tally' = tally ∧ chain = name then
          Metrics.raised (metrics.get? (tally.key table name)) [total]
        else metrics.get? (tally.key table name) := by
    by_cases hsame : tally' = tally ∧ chain = name
    · rw [if_pos hsame, hsame.1, hsame.2, Metrics.get?_raise]
    · rw [if_neg hsame, Metrics.raise, Metrics.get?_update, if_neg (mt Tally.key_inj.mp hsame)]
  show Metrics.get?
    ((metrics.raise (Tally.packets.key table chain) (Tally.packets.of counters)).raise
      (Tally.bytes.key table chain) (Tally.bytes.of counters)) (tally.key table name) = _
  rw [hraise, hraise]
  cases tally with
  | packets => simp
  | bytes => simp

/-- No other notice writes these metrics. -/
theorem get?_record_of_not_isCount {notice : Notice} (h : notice.isCount = false) :
    (Notice.record metrics notice).get? (tally.key table name) =
      metrics.get? (tally.key table name) := by
  have hne (metric : EngineMetric) (hmetric : metric.name ≠ tally.metric.name)
      (labels : List (String × String)) (metrics : Metrics) (f : Nat → Nat) :
      (metrics.update (metric.key labels) f).get? (tally.key table name) =
        metrics.get? (tally.key table name) :=
    Metrics.get?_update_of_ne hmetric f
  cases notice with
  | committed t sequence changes activeRules =>
    show Metrics.get? (Metrics.update (Metrics.update metrics _ _) _ _) _ = _
    rw [hne .activeRules (by cases tally <;> decide),
      hne .generationsCommitted (by cases tally <;> decide)]
  | evaluationAborted t base error => exact hne .evaluationAborts (by cases tally <;> decide) _ _ _
  | traceDropped => exact hne .traceDropped (by cases tally <;> decide) _ _ _
  | counted t chain counters => cases h
  | _ => rfl

/-- A publication raises a metric to the counters of the chains that have its name. -/
theorem get?_countNotices (t : Table) :
    (t.countNotices.foldl Notice.record metrics).get? (tally.key t.name name) =
      Metrics.raised (metrics.get? (tally.key t.name name))
        ((t.countersOf name).map fun counted => tally.of counted.2) := by
  unfold Table.countNotices Table.countersOf
  induction t.chains.toList generalizing metrics with
  | nil => exact (Metrics.raised_nil _).symm
  | cons chain rest ih =>
    cases hcounters : chain.counters? with
    | none =>
      simp only [List.filterMap_cons, hcounters, Option.map_none, ite_self]
      exact ih
    | some counters =>
      simp only [List.filterMap_cons, hcounters, Option.map_some, List.foldl_cons]
      rw [ih, get?_record_counted]
      by_cases hname : chain.name = name
      · simp only [if_pos hname, List.map_cons, Metrics.raised_append, List.singleton_append]
      · simp only [if_neg hname]

end record

/-- Nothing has been written to the metrics of chains. -/
def Telemetry.SameCounts (before after : Telemetry) : Prop :=
  ∀ (tally : Tally) (table name : String),
    after.metrics.get? (tally.key table name) = before.metrics.get? (tally.key table name)

namespace Telemetry.SameCounts

theorem refl (telemetry : Telemetry) : telemetry.SameCounts telemetry := fun _ _ _ => rfl

theorem trans {first second third : Telemetry} (h : first.SameCounts second)
    (h' : second.SameCounts third) : first.SameCounts third :=
  fun tally table name => (h' tally table name).trans (h tally table name)

theorem add (telemetry : Telemetry) {notices : List Notice}
    (h : ∀ notice ∈ notices, notice.isCount = false) :
    telemetry.SameCounts (telemetry.add notices) := by
  intro tally table name
  show (notices.foldl Notice.record telemetry.metrics).get? _ = _
  induction notices generalizing telemetry with
  | nil => rfl
  | cons notice rest ih =>
    rw [List.forall_mem_cons] at h
    rw [List.foldl_cons, ih ⟨[], Notice.record telemetry.metrics notice⟩ h.2,
      get?_record_of_not_isCount h.1]

end Telemetry.SameCounts

/-! ### What calls tell -/

theorem Transaction.isCount_abortNotices (tx : Transaction) :
    ∀ notice ∈ tx.abortNotices, notice.isCount = false := by
  unfold abortNotices
  split
  · simp
  · simp [Notice.isCount]

theorem Transaction.isCount_commit (tx : Transaction) :
    ∀ notice ∈ tx.commit.2.2, notice.isCount = false := by
  unfold commit
  split
  · exact List.forall_mem_cons.mpr ⟨rfl, tx.isCount_abortNotices⟩
  · simp [Publication.notices, Notice.isCount]

theorem Ruleset.isCount_apply (ruleset : Ruleset) (t : Table) :
    ∀ notice ∈ (ruleset.apply t).2.2, notice.isCount = false := by
  have hadded (filling : Filling) : ∀ notice ∈ filling.notices, notice.isCount = false := by
    intro notice hnotice
    obtain ⟨added, -, rfl⟩ := List.mem_map.mp hnotice
    rfl
  unfold apply
  cases ruleset.fill t.begin with
  | error failed =>
    exact List.forall_mem_append.mpr ⟨hadded _, failed.2.tx.isCount_abortNotices⟩
  | ok filling =>
    have hcommit := filling.tx.isCount_commit
    dsimp only
    split
    · next heq =>
      rw [heq] at hcommit
      exact List.forall_mem_append.mpr ⟨hadded _, hcommit⟩
    · next heq =>
      rw [heq] at hcommit
      refine List.forall_mem_append.mpr ⟨List.forall_mem_append.mpr ⟨hadded _, hcommit⟩, ?_⟩
      simp [Notice.isCount]

theorem TraceSink.isCount_emitAll (sink : TraceSink) (events : List TraceEvent) :
    ∀ notice ∈ (sink.emitAll events).2, notice.isCount = false := by
  cases sink with
  | collect earlier => simp [emitAll]
  | log => simp [emitAll, Notice.isCount]
  | bounded channel =>
    by_cases hopen : channel.isOpen = true
    · simp [emitAll, TraceChannel.sendAll, hopen, Notice.isCount]
    · simp [emitAll, TraceChannel.sendAll, hopen]

namespace Session

variable {s : Session}

theorem isCount_operationNotices (table : String) (operation : Transaction.Operation)
    (answer : Transaction.Answer) :
    ∀ notice ∈ operationNotices table operation answer, notice.isCount = false := by
  unfold operationNotices
  split
  · simp [Notice.isCount]
  · simp

/-- A call that is refused tells nothing. -/
theorem sameCounts_orSame {α : Type} {done : Except SessionError (α × Session)}
    (h : ∀ answer s', done = .ok (answer, s') → s.telemetry.SameCounts s'.telemetry) :
    s.telemetry.SameCounts (s.orSame (done.map (·.2))).telemetry := by
  cases done with
  | error e => exact .refl _
  | ok result => exact h result.1 result.2 rfl

theorem sameCounts_apply {ruleset : Ruleset} {answer : Except EngineError Nat} {s' : Session}
    (h : s.apply ruleset = .ok (answer, s')) : s.telemetry.SameCounts s'.telemetry := by
  unfold Session.apply at h
  obtain ⟨t, -, hdone⟩ := bind_eq_ok_iff.mp h
  cases hdone
  exact .add _ (ruleset.isCount_apply t)

/-- Only a publication writes to the metrics of chains. -/
theorem sameCounts_perform (s : Session) {call : Call} (hother : call ≠ .publish) :
    s.telemetry.SameCounts (s.perform call).telemetry := by
  have hsent (packet : Packet) (base : ChainId) :
      s.telemetry.SameCounts (s.tryEvaluate packet base).2.telemetry :=
    .add _ (TraceSink.isCount_emitAll _ _)
  cases call with
  | begin =>
    show s.telemetry.SameCounts (s.orSame s.begin).telemetry
    unfold Session.begin
    cases s.stage <;> exact .refl _
  | edit operation =>
    apply sameCounts_orSame
    intro answer s' h
    obtain ⟨tx, -, happlied⟩ := bind_eq_ok_iff.mp h
    split at happlied
    · cases happlied
    · cases happlied
      exact .add _ (isCount_operationNotices _ _ _)
  | abort =>
    show s.telemetry.SameCounts (s.orSame s.abort).telemetry
    cases habort : s.abort with
    | error e => exact .refl _
    | ok s' =>
      obtain ⟨tx, -, hdone⟩ := bind_eq_ok_iff.mp habort
      cases hdone
      exact .add _ tx.isCount_abortNotices
  | commit =>
    apply sameCounts_orSame
    intro answer s' h
    obtain ⟨tx, -, hdone⟩ := bind_eq_ok_iff.mp h
    cases hdone
    exact .add _ tx.isCount_commit
  | apply ruleset => exact sameCounts_orSame fun _ _ => sameCounts_apply
  | applyText text source =>
    apply sameCounts_orSame
    intro answer s' h
    obtain ⟨t, -, hread⟩ := bind_eq_ok_iff.mp h
    split at hread
    · exact sameCounts_apply hread
    · cases hread
      exact .refl _
  | tryEvaluate packet base => exact hsent packet base
  | evaluate packet base =>
    refine (hsent packet base).trans (.add _ ?_)
    unfold Evaluator.notices
    split
    · simp
    · simp [Notice.isCount]
  | drain => exact .refl _
  | publish => exact absurd rfl hother
  | enter => exact .refl _
  | leave index =>
    show s.telemetry.SameCounts (s.leave index).telemetry
    unfold Session.leave
    split <;> exact .refl _
  | use evaluator => exact .refl _

theorem name_perform (s : Session) (call : Call) : (s.perform call).table.name = s.table.name := by
  cases hsends : call.sends? with
  | none =>
    exact @Move.keeps (fun t => t.name = s.table.name) (fun h hwrite => hwrite.name_eq.trans h)
      (fun _ h => h) _ _ _ _ (s.perform_move hsends) rfl
  | some sent =>
    rw [table_perform_sends hsends]
    split <;> rfl

/-! ### What calls publish -/

/-- The metric of a number that the chains with a name count. -/
def metric? (s : Session) (tally : Tally) (chain : String) : Option Nat :=
  s.telemetry.metrics.get? (tally.key s.table.name chain)

/-- What a call publishes under a name, with the chains that have counted it. -/
def publishes (s : Session) (name : String) : Call → List (ChainId × Counters)
  | .publish => s.table.countersOf name
  | _ => []

/-- What calls publish under a name, in order. -/
def publishedAs (s : Session) (name : String) : List Call → List (ChainId × Counters)
  | [] => []
  | call :: rest => s.publishes name call ++ (s.perform call).publishedAs name rest

theorem publishedAs_append (s : Session) (name : String) (calls calls' : List Call) :
    s.publishedAs name (calls ++ calls') =
      s.publishedAs name calls ++ (s.performAll calls).publishedAs name calls' := by
  induction calls generalizing s with
  | nil => rfl
  | cons call rest ih =>
    show _ ++ (s.perform call).publishedAs name (rest ++ calls') = _ ++ _ ++ _
    rw [ih, List.append_assoc]
    rfl

theorem publishedAs_publish (s : Session) (name : String) (calls : List Call) :
    s.publishedAs name (calls ++ [.publish]) =
      s.publishedAs name calls ++ (s.performAll calls).table.countersOf name := by
  rw [publishedAs_append]
  exact congrArg _ (List.append_nil _)

/-- A call raises a metric to what it publishes under the name. -/
theorem metric?_perform (s : Session) (call : Call) (tally : Tally) (name : String) :
    (s.perform call).metric? tally name = Metrics.raised (s.metric? tally name)
      ((s.publishes name call).map fun counted => tally.of counted.2) := by
  by_cases hpublish : call = .publish
  · subst hpublish
    exact get?_countNotices s.table
  · have hnothing : s.publishes name call = [] := by
      cases call with
      | publish => exact absurd rfl hpublish
      | _ => rfl
    rw [hnothing, List.map_nil, Metrics.raised_nil, metric?, name_perform]
    exact s.sameCounts_perform hpublish tally _ name

/-- A metric is raised to all numbers that are published under its name. -/
theorem metric?_performAll (s : Session) (calls : List Call) (tally : Tally) (name : String) :
    (s.performAll calls).metric? tally name = Metrics.raised (s.metric? tally name)
      ((s.publishedAs name calls).map fun counted => tally.of counted.2) := by
  induction calls generalizing s with
  | nil => exact (Metrics.raised_nil _).symm
  | cons call rest ih =>
    refine (ih (s.perform call)).trans ?_
    rw [metric?_perform, Metrics.raised_append, ← List.map_append]
    rfl

end Session

/-! ### Chains of one name -/

/-- What is published under a name belongs to a base chain with that name. -/
theorem Table.WellFormed.mem_countersOf_iff {t : Table} (h : t.WellFormed) {name : String}
    {id : ChainId} {counters : Counters} :
    (id, counters) ∈ t.countersOf name ↔
      ∃ chain, t.chains.get? id = some chain ∧ chain.name = name ∧
        chain.counters? = some counters := by
  unfold countersOf
  rw [List.mem_filterMap]
  constructor
  · intro hmem
    obtain ⟨chain, hchain, hcounted⟩ := hmem
    obtain ⟨i, hget⟩ := ChainMap.mem_toList.mp hchain
    by_cases hname : chain.name = name
    · rw [if_pos hname] at hcounted
      obtain ⟨c, hcounters, heq⟩ := Option.map_eq_some_iff.mp hcounted
      cases heq
      rw [← h.id_eq hget] at hget
      exact ⟨chain, hget, hname, hcounters⟩
    · rw [if_neg hname] at hcounted
      cases hcounted
  · intro hfound
    obtain ⟨chain, hget, hname, hcounters⟩ := hfound
    refine ⟨chain, ChainMap.mem_toList.mpr ⟨id, hget⟩, ?_⟩
    rw [if_pos hname, hcounters, h.id_eq hget]
    rfl

/-- Names are unique, so nothing else is published under the name of a chain at the same time. -/
theorem Table.WellFormed.eq_of_mem_countersOf {t : Table} (h : t.WellFormed) {id : ChainId}
    {chain : Chain} {counters : Counters} (hget : t.chains.get? id = some chain)
    (hcounters : chain.counters? = some counters) {other : ChainId × Counters}
    (hother : other ∈ t.countersOf chain.name) : other = (id, counters) := by
  obtain ⟨c, hc, hname, hcounted⟩ := h.mem_countersOf_iff.mp hother
  have hid : other.1 = id := Option.some.inj
    ((h.idOf?_iff.mpr ⟨c, hc, hname⟩).symm.trans (h.idOf?_iff.mpr ⟨chain, hget, rfl⟩))
  rw [hid, hget] at hc
  cases hc
  exact Prod.ext hid (Option.some.inj (hcounted.symm.trans hcounters))

namespace Session

variable {s : Session} {id : ChainId} {c : Counters}

/-- What is published of a chain is what was counted for it up to then. -/
theorem exists_lengths_of_mem (h : s.Reachable) (hcounted : s.table.Counted id c)
    {calls : List Call} {name : String} {counters : Counters}
    (hmem : (id, counters) ∈ s.publishedAs name calls) :
    ∃ lengths, lengths <+: s.countedAt id calls ∧ counters = c.add (.ofLengths lengths) := by
  induction calls generalizing s c with
  | nil => cases hmem
  | cons call rest ih =>
    rcases List.mem_append.mp hmem with hnow | hlater
    · cases call with
      | publish =>
        obtain ⟨chain, hget, -, hcounters⟩ := h.wellFormed.mem_countersOf_iff.mp hnow
        obtain ⟨info, hinfo, rfl⟩ := Option.map_eq_some_iff.mp hcounters
        refine ⟨[], List.nil_prefix, ?_⟩
        rw [hcounted.total_eq hget hinfo]
        exact c.add_zero.symm
      | _ => cases hnow
    · obtain ⟨lengths, hprefix, heq⟩ :=
        ih (h.perform call) (counted_performAll hcounted [call]) hlater
      refine ⟨s.countedAt id [call] ++ lengths, ?_, ?_⟩
      · rw [countedAt_cons call rest]
        exact (List.prefix_append_right_inj _).mpr hprefix
      · rw [heq, Counters.add_assoc, ← Counters.ofLengths_append]

section last

variable {tally : Tally} {name : String} {chain : Chain} {counters : Counters}

/-- Right after a publication, a metric that was not there at first is the largest number ever
published under its name. -/
theorem metric?_publish (hnew : s.metric? tally name = none) (calls : List Call) :
    (s.performAll calls).publish.metric? tally name =
      ((s.publishedAs name (calls ++ [.publish])).map fun counted => tally.of counted.2).max? := by
  have hall := s.metric?_performAll (calls ++ [.publish]) tally name
  rw [hnew, performAll, List.foldl_append] at hall
  exact hall

variable {calls : List Call}

theorem mem_publishedAs_publish (h : s.Reachable)
    (hget : (s.performAll calls).table.chains.get? id = some chain)
    (hcounters : chain.counters? = some counters) :
    (id, counters) ∈ s.publishedAs chain.name (calls ++ [.publish]) := by
  have hwf := (h.performAll calls).wellFormed
  rw [publishedAs_publish]
  exact List.mem_append_right _ (hwf.mem_countersOf_iff.mpr ⟨chain, hget, rfl, hcounters⟩)

/-- The last publication has this chain and no other, so its number is the largest one if it is as
large as all numbers before. -/
theorem metric?_publish_eq_iff (h : s.Reachable)
    (hnew : s.metric? tally chain.name = none)
    (hget : (s.performAll calls).table.chains.get? id = some chain)
    (hcounters : chain.counters? = some counters) :
    (s.performAll calls).publish.metric? tally chain.name = some (tally.of counters) ↔
      ∀ other ∈ s.publishedAs chain.name calls, tally.of other.2 ≤ tally.of counters := by
  have hwf := (h.performAll calls).wellFormed
  have hmem := mem_publishedAs_publish h hget hcounters
  rw [metric?_publish hnew, List.max?_eq_some_iff]
  rw [publishedAs_publish] at hmem ⊢
  constructor
  · intro hlargest other hother
    exact hlargest.2 _ (List.mem_map_of_mem (List.mem_append_left _ hother))
  · intro hbefore
    refine ⟨List.mem_map.mpr ⟨_, hmem, rfl⟩, ?_⟩
    intro total htotal
    obtain ⟨other, hother, rfl⟩ := List.mem_map.mp htotal
    rcases List.mem_append.mp hother with hearlier | hlast
    · exact hbefore other hearlier
    · rw [hwf.eq_of_mem_countersOf hget hcounters hlast]

/-- As long as it does not wrap, the number of a chain never falls below one published of it. -/
theorem published_le (h : s.Reachable) (hempty : s.table.Counted id .zero)
    (hget : (s.performAll calls).table.chains.get? id = some chain)
    (hcounters : chain.counters? = some counters)
    (hfits : tally.sum (s.countedAt id calls) < UInt64.size) {published : Counters}
    (hpublished : (id, published) ∈ s.publishedAs name calls) :
    tally.of published ≤ tally.of counters := by
  obtain ⟨lengths, hprefix, rfl⟩ := exists_lengths_of_mem h hempty hpublished
  obtain ⟨info, hinfo, rfl⟩ := Option.map_eq_some_iff.mp hcounters
  have hle : tally.sum lengths ≤ tally.sum (s.countedAt id calls) := Tally.sum_le_of_prefix hprefix
  rw [(counted_performAll hempty calls).total_eq hget hinfo, Counters.zero_add, Counters.zero_add,
    Tally.of_ofLengths hfits, Tally.of_ofLengths (Nat.lt_of_le_of_lt hle hfits)]
  exact hle

end last

/-- A metric is the largest number that has ever been published under its name, whichever chain had
it. Right after a publication it is therefore never less than what the chain counts that has the
name now, and it is just that if and only if nothing larger was published under the name before. So
it is as long as no other base chain was published under the name, and the numbers do not wrap. -/
theorem published_metrics (tableName : String) (ns : Namespace) (statsShards : Nat)
    (ev : Evaluator) (sink : TraceSink) (calls : List Call) :
    let first := start (.create tableName ns statsShards) ev sink
    let last := first.performAll calls
    (∀ tally name, last.publish.metric? tally name =
      ((first.publishedAs name (calls ++ [.publish])).map fun counted =>
        Tally.of tally counted.2).max?) ∧
    ∀ id chain counters, last.table.chains.get? id = some chain →
      chain.counters? = some counters → ∀ tally,
        (∃ total, last.publish.metric? tally chain.name = some total ∧
          tally.of counters ≤ total) ∧
        (last.publish.metric? tally chain.name = some (tally.of counters) ↔
          ∀ other ∈ first.publishedAs chain.name calls, tally.of other.2 ≤ tally.of counters) ∧
        ((∀ other ∈ first.publishedAs chain.name calls, other.1 = id) →
          tally.sum (first.countedAt id calls) < UInt64.size →
          last.publish.metric? tally chain.name = some (tally.of counters)) := by
  intro first last
  have hstart : first.Reachable := .start tableName ns statsShards ev sink
  refine ⟨fun tally name => metric?_publish rfl calls, ?_⟩
  intro id chain counters hget hcounters tally
  have hiff : last.publish.metric? tally chain.name = some (tally.of counters) ↔
      ∀ other ∈ first.publishedAs chain.name calls, tally.of other.2 ≤ tally.of counters :=
    metric?_publish_eq_iff hstart rfl hget hcounters
  refine ⟨?_, hiff, ?_⟩
  · have hmem : tally.of counters ∈ (first.publishedAs chain.name (calls ++ [.publish])).map
        fun counted => tally.of counted.2 :=
      List.mem_map.mpr ⟨_, mem_publishedAs_publish hstart hget hcounters, rfl⟩
    obtain ⟨total, htotal⟩ := Option.isSome_iff_exists.mp (List.isSome_max?_of_mem hmem)
    exact ⟨total, (metric?_publish rfl calls).trans htotal,
      (List.max?_eq_some_iff.mp htotal).2 _ hmem⟩
  · intro hsame hfits
    refine hiff.mpr ?_
    intro other hother
    obtain ⟨i, published⟩ := other
    obtain rfl : i = id := hsame _ hother
    have hempty : first.table.Counted i .zero := .of_absent hstart.wellFormed rfl
    exact published_le hstart hempty hget hcounters hfits hother

/-- Two packets are published, and one more is sent while a transaction is open that is aborted
afterwards. -/
theorem published_metrics_aborted :
    let packet : Packet := { (default : Packet) with data := [0x45, 6, 7] }
    let first := start (.create "filter" .initial 2) .plain .log
    let calls : List Call := [.begin, .edit (.addChain "input" (some .accept)), .commit,
      .evaluate packet ⟨0⟩, .evaluate packet ⟨0⟩, .publish,
      .begin, .edit (.deleteChain ⟨0⟩), .evaluate packet ⟨0⟩, .abort]
    (first.performAll calls).publish.metric? .packets "input" = some 3 ∧
      (first.performAll calls).publish.metric? .bytes "input" = some 9 := by
  intro packet first calls
  obtain ⟨-, hchains⟩ := published_metrics "filter" .initial 2 .plain .log calls
  have hfound : ((first.performAll calls).table.chains.get? ⟨0⟩).map
      (fun chain => (chain.name, chain.counters?)) = some ("input", some ⟨3, 9⟩) := by
    decide +kernel
  obtain ⟨chain, hget, hchain⟩ := Option.map_eq_some_iff.mp hfound
  obtain ⟨hname, hcounters⟩ := Prod.mk.inj hchain
  have hsame : ∀ other ∈ first.publishedAs "input" calls, other.1 = ⟨0⟩ := by decide +kernel
  have hkept (tally : Tally) := (hchains ⟨0⟩ chain _ hget hcounters tally).2.2
  rw [hname] at hkept
  exact ⟨hkept .packets hsame (by decide +kernel), hkept .bytes hsame (by decide +kernel)⟩

/-- Two packets are published, the chain is deleted and its name is given to a new chain. The new
chain has counted one packet, of which the metrics show nothing. -/
theorem published_metrics_recreated :
    let packet : Packet := { (default : Packet) with data := [0x45, 6, 7] }
    let first := start (.create "filter" .initial 2) .plain .log
    let calls : List Call := [.begin, .edit (.addChain "input" (some .accept)), .commit,
      .evaluate packet ⟨0⟩, .evaluate packet ⟨0⟩, .publish,
      .begin, .edit (.deleteChain ⟨0⟩), .commit,
      .begin, .edit (.addChain "input" (some .accept)), .commit, .evaluate packet ⟨1⟩]
    let last := (first.performAll calls).publish
    (last.table.chains.get? ⟨1⟩).map (fun chain => (chain.name, chain.counters?)) =
        some ("input", some ⟨1, 3⟩) ∧
      last.metric? .packets "input" = some 2 ∧ last.metric? .bytes "input" = some 6 := by
  decide +kernel

end Session

end RuleChain
