import RuleChain.Proofs.Meaning
import RuleChain.Proofs.Sessions

/-! # Statistics account for the verdicts of policies

  A base chain counts the packets that were sent to it and that its policy decided. The account is
  kept chain by chain (`Table.Counted`):

  - a write leaves the statistics of a chain that stays alone, and a chain that is added starts at
    zero, under an id that no packet was counted for;
  - an evaluation counts its packet for its base chain if the policy decided, and writes nothing
    else.

  So the counters of a chain are what has been sent to it since it was added.
-/

namespace RuleChain

/-! ### Counters -/

namespace Counters

/-- What packets of some lengths add up to. -/
def ofLengths (lengths : List Nat) : Counters :=
  ⟨UInt64.ofNat lengths.length, UInt64.ofNat lengths.sum⟩

theorem add_comm (a b : Counters) : a.add b = b.add a := by
  unfold add
  rw [UInt64.add_comm a.packets, UInt64.add_comm a.bytes]

theorem add_assoc (a b c : Counters) : (a.add b).add c = a.add (b.add c) := by
  unfold add
  simp only [UInt64.add_assoc]

theorem add_zero (c : Counters) : c.add .zero = c := by
  unfold add zero
  simp only [UInt64.add_zero]

theorem zero_add (c : Counters) : zero.add c = c := by
  rw [add_comm, add_zero]

theorem add_count (a b : Counters) (length : UInt64) :
    a.add (b.count length) = (a.add b).count length := by
  unfold add count
  simp only [UInt64.add_assoc]

theorem count_add (a b : Counters) (length : UInt64) :
    (a.count length).add b = (a.add b).count length := by
  rw [add_comm, add_count, add_comm]

theorem ofLengths_cons (length : Nat) (lengths : List Nat) :
    ofLengths (length :: lengths) = (ofLengths lengths).count (UInt64.ofNat length) := by
  have hsum : UInt64.ofNat (length + lengths.sum) =
      UInt64.ofNat lengths.sum + UInt64.ofNat length := by
    rw [Nat.add_comm, UInt64.ofNat_add]
  unfold ofLengths count
  rw [List.length_cons, List.sum_cons, hsum, UInt64.ofNat_add]
  rfl

theorem ofLengths_append (first second : List Nat) :
    ofLengths (first ++ second) = (ofLengths first).add (ofLengths second) := by
  unfold ofLengths add
  rw [List.length_append, List.sum_append, UInt64.ofNat_add, UInt64.ofNat_add]

/-- A packet that is counted before the shards are added up is counted in the sum. -/
theorem foldl_count (shards : List Counters) (c : Counters) (length : UInt64) :
    shards.foldl add (c.count length) = (shards.foldl add c).count length := by
  induction shards generalizing c with
  | nil => rfl
  | cons shard rest ih => rw [List.foldl_cons, List.foldl_cons, count_add, ih]

/-- It does not matter in which shard. -/
theorem foldl_modify (shards : List Counters) (c : Counters) (length : UInt64) {i : Nat}
    (hi : i < shards.length) :
    (shards.modify i (·.count length)).foldl add c = (shards.foldl add c).count length := by
  induction shards generalizing c i with
  | nil => exact absurd hi (Nat.not_lt_zero i)
  | cons shard rest ih =>
    cases i with
    | zero =>
      rw [List.modify_zero_cons, List.foldl_cons, List.foldl_cons, add_count, foldl_count]
    | succ i =>
      have hlt : i < rest.length := Nat.lt_of_succ_lt_succ hi
      rw [List.modify_succ_cons, List.foldl_cons, List.foldl_cons, ih _ hlt]

end Counters

namespace ChainStats

theorem total_record (stats : ChainStats) (worker : Nat) (length : UInt64) :
    (stats.record worker length).total = stats.total.count length :=
  Counters.foldl_modify _ _ _ (Nat.mod_lt worker stats.shards_pos)

theorem total_ofShardCount (shards : Nat) : (ofShardCount shards).total = .zero := by
  show (List.replicate (max shards 1) Counters.zero).foldl Counters.add Counters.zero = _
  induction max shards 1 with
  | zero => rfl
  | succ n ih =>
    rw [List.replicate_succ, List.foldl_cons, Counters.add_zero]
    exact ih

end ChainStats

/-! ### The account of a chain -/

/-- If there is a base chain with an id it has counted so much, and nothing was counted for an id
that is not handed out yet. -/
structure Table.Counted (id : ChainId) (c : Counters) (t : Table) : Prop where
  slots_le : t.chains.slots.length ≤ t.nextChain
  fresh : t.nextChain ≤ id.index → c = .zero
  total_eq : ∀ {chain info}, t.chains.get? id = some chain → chain.base = some info →
    info.stats.total = c

namespace Table.Counted

variable {id : ChainId} {c : Counters} {t t' : Table}

/-- Nothing has been counted for an id that no chain has. -/
theorem of_absent (hwf : t.WellFormed) (hnone : t.chains.get? id = none) : t.Counted id .zero where
  slots_le := hwf.slots_le
  fresh _ := rfl
  total_eq hget := by
    rw [hnone] at hget
    cases hget

theorem readers (h : t.Counted id c) (readers : PerGeneration Nat) :
    { t with readers }.Counted id c :=
  { h with }

/-- No write of the writer counts anything, or forgets what was counted. -/
theorem write (h : t.Counted id c) (hwrite : t.Write t') : t'.Counted id c := by
  cases hwrite with
  | flip => exact { h with }
  | addChain name policy =>
    refine { h with
      slots_le := ?_
      fresh := fun hle => h.fresh (Nat.le_of_succ_le hle)
      total_eq := fun {chain info} hget hinfo => ?_ }
    · have hle := h.slots_le
      simp only [ChainMap.length_slots_insert]
      omega
    · rw [ChainMap.get?_insert h.slots_le] at hget
      split at hget
      · next heq =>
        -- the new chain has the next id, for which nothing was counted
        cases hget
        obtain ⟨policy', -, rfl⟩ := Option.map_eq_some_iff.mp hinfo
        rw [h.fresh (Nat.le_of_eq (by rw [heq]))]
        exact ChainStats.total_ofShardCount _
      · exact h.total_eq hget hinfo
  | link i exprs mask place =>
    refine { h with
      slots_le := ?_
      total_eq := fun hget hinfo => ?_ }
    · simpa [modifyChain] using h.slots_le
    · rcases ChainMap.get?_modify_cases hget with ⟨-, chain, hc, rfl⟩ | ⟨-, hc⟩
      · exact h.total_eq hc hinfo
      · exact h.total_eq hc hinfo
  | shrink shrinks =>
    refine { h with
      slots_le := Nat.le_trans shrinks.slots_le h.slots_le
      total_eq := fun hget hinfo => ?_ }
    obtain ⟨chain, hc, hbase, -⟩ := shrinks.get? hget
    rw [hbase] at hinfo
    exact h.total_eq hc hinfo

/-- A packet is counted for its base chain and for no other. -/
theorem record (h : t.Counted id c) {base : ChainId} {chain : Chain}
    (hbase : t.chains.get? base = some chain) (worker : Nat) (length : UInt64) :
    (t.modifyChain base (·.record worker length)).Counted id
      (if base = id then c.count length else c) := by
  have hslots : (t.modifyChain base (·.record worker length)).chains.slots.length ≤
      t.nextChain := by
    simpa [modifyChain] using h.slots_le
  by_cases heq : base = id
  · subst heq
    rw [if_pos rfl]
    refine ⟨hslots, fun hle => ?_, fun {chain info} hget hinfo => ?_⟩
    · -- the id of a chain that is there is handed out
      have hlt : base.index < t.nextChain :=
        Nat.lt_of_lt_of_le (ChainMap.index_lt_of_get? hbase) h.slots_le
      exact absurd hlt (Nat.not_lt.mpr hle)
    · rcases ChainMap.get?_modify_cases hget with ⟨-, chain, hc, rfl⟩ | ⟨hne, -⟩
      · obtain ⟨info', hinfo', rfl⟩ := Option.map_eq_some_iff.mp hinfo
        rw [ChainStats.total_record, h.total_eq hc hinfo']
      · exact absurd rfl hne
  · rw [if_neg heq]
    refine ⟨hslots, h.fresh, fun {chain info} hget hinfo => ?_⟩
    rcases ChainMap.get?_modify_cases hget with ⟨hsame, -⟩ | ⟨-, hc⟩
    · exact absurd hsame.symm heq
    · exact h.total_eq hc hinfo

end Table.Counted

/-! ### Packets decided by a policy -/

namespace Journey

section start

variable {j : Journey} {base : ChainId} {chain : Chain} {bound : Nat}
  (hget : j.chains.get? base = some chain) (hsound : j.sees.Sound)
  (hdepth : j.sees.edges.DepthLe base bound) (hbound : bound ≤ JumpStack.capacity)
include hget hsound hdepth hbound

/-- A walk ends as the processing of the rules does, unless it is given up. -/
theorem start_of_processes {o : PlainMap.Outcome} {data : Data} {n : Nat} {ending : Ending}
    (hprocesses : j.sees.Processes j.packet (j.sees.rules base) (.replicate _ 0) o data n)
    (hends : j.sees.After j.packet o [] data ending 0) :
    (n ≤ j.budget ∧ (j.start chain).result = .ok ending) ∨
      ∃ error, (j.start chain).result = .error error ∧ j.budget < n := by
  have hwalk := start_eq hget hsound hdepth hbound ⟨_, _, _, _, hprocesses, hends, rfl⟩ j.budget
  by_cases hle : n ≤ j.budget
  · rw [if_pos (show n + 0 ≤ j.budget from hle)] at hwalk
    exact Or.inl ⟨hle, hwalk.1⟩
  · rw [if_neg (show ¬ n + 0 ≤ j.budget from hle)] at hwalk
    obtain ⟨name, herror⟩ := hwalk
    exact Or.inr ⟨_, herror, Nat.lt_of_not_le hle⟩

/-- A walk leaves its base chain if and only if the rules are processed to their end within the
budget. -/
theorem start_byPolicy_iff : (j.start chain).result = .ok .byPolicy ↔ ∃ data n,
    j.sees.Processes j.packet (j.sees.rules base) (.replicate _ 0) .finished data n ∧
      n ≤ j.budget := by
  constructor
  · intro hresult
    obtain ⟨o, data, n, hprocesses⟩ :=
      PlainMap.exists_processes hdepth (fun _ hrule => hrule) (.replicate _ 0)
    cases o with
    | finished =>
      rcases start_of_processes hget hsound hdepth hbound hprocesses .policy with ⟨hle, -⟩ |
        ⟨error, herror, -⟩
      · exact ⟨data, n, hprocesses, hle⟩
      · cases hresult.symm.trans herror
    | decided d =>
      -- the walk would end by the rule, or be given up
      rcases start_of_processes hget hsound hdepth hbound hprocesses .decided with ⟨-, hdecided⟩ |
        ⟨error, herror, -⟩
      · cases hresult.symm.trans hdecided
      · cases hresult.symm.trans herror
  · rintro ⟨data, n, hprocesses, hle⟩
    rcases start_of_processes hget hsound hdepth hbound hprocesses .policy with ⟨-, hresult⟩ |
      ⟨error, -, hlt⟩
    · exact hresult
    · omega

end start

end Journey

/-- A packet is counted if the walk leaves its base chain. -/
theorem Evaluator.counts_iff {ev : Evaluator} {t : Table} {packet : Packet} {base : ChainId} :
    ev.counts t packet base = true ↔ ∃ chain info, t.chains.get? base = some chain ∧
      chain.base = some info ∧ info.ns = packet.ns ∧
      ((ev.journey t packet).start chain).result = .ok .byPolicy := by
  unfold counts
  constructor
  · intro hcounts
    cases hfound : baseChain? t base with
    | none =>
      rw [hfound] at hcounts
      cases hcounts
    | some found =>
      obtain ⟨chain, info⟩ := found
      obtain ⟨hget, hinfo⟩ := baseChain?_eq_some_iff.mp hfound
      simp only [hfound, Bool.and_eq_true, decide_eq_true_eq] at hcounts
      refine ⟨chain, info, hget, hinfo, hcounts.1, ?_⟩
      have hended := hcounts.2
      split at hended
      · assumption
      · cases hended
  · rintro ⟨chain, info, hget, hinfo, hns, hresult⟩
    simp only [baseChain?_eq_some_iff.mpr ⟨hget, hinfo⟩, hns, hresult, decide_true, Bool.and_self]

/-- A packet that was sent, with the evaluator and the table of that time. -/
structure Sent where
  evaluator : Evaluator
  table : Table
  packet : Packet
  base : ChainId

namespace Sent

/-- Whether the evaluation counts the packet. -/
def isCounted (sent : Sent) : Bool := sent.evaluator.counts sent.table sent.packet sent.base

/-- Whether it was sent to this chain and counted. -/
def isCountedAt (id : ChainId) (sent : Sent) : Bool := sent.base = id && sent.isCounted

/-- The policy of a base chain decides: the packet is of the namespace of the chain, the rules are
processed to their end, however the packet has come there, and the evaluator may visit as many. -/
def EndsByPolicy (sent : Sent) : Prop :=
  ∃ chain info data n, sent.table.chains.get? sent.base = some chain ∧ chain.base = some info ∧
    info.ns = sent.packet.ns ∧
    (sent.table.chains.plain sent.table.generation).Processes sent.packet
      ((sent.table.chains.plain sent.table.generation).rules sent.base) (.replicate _ 0) .finished
      data n ∧
    n ≤ sent.evaluator.maxSteps

theorem isCounted_iff {sent : Sent} {s : System} (h : s.Reachable) (htable : s.table = sent.table) :
    sent.isCounted = true ↔ sent.EndsByPolicy := by
  obtain ⟨ev, t, packet, base⟩ := sent
  obtain rfl : s.table = t := htable
  have hwalk : ∀ {chain info}, s.table.chains.get? base = some chain → chain.base = some info →
      (((ev.journey s.table packet).start chain).result = .ok .byPolicy ↔ ∃ data n,
        (s.table.chains.plain s.table.generation).Processes packet
          ((s.table.chains.plain s.table.generation).rules base) (.replicate _ 0) .finished data n ∧
        n ≤ ev.maxSteps) := by
    intro chain info hget hinfo
    obtain ⟨depth, hle, hdepth⟩ := h.inv.exists_depth hget hinfo
    have hsound : (ev.journey s.table packet).sees.Sound := h.inv.sound (Or.inl rfl)
    exact Journey.start_byPolicy_iff hget hsound hdepth hle
  rw [isCounted, Evaluator.counts_iff]
  constructor
  · rintro ⟨chain, info, hget, hinfo, hns, hresult⟩
    obtain ⟨data, n, hprocesses, hle⟩ := (hwalk hget hinfo).mp hresult
    exact ⟨chain, info, data, n, hget, hinfo, hns, hprocesses, hle⟩
  · rintro ⟨chain, info, data, n, hget, hinfo, hns, hprocesses, hle⟩
    exact ⟨chain, info, hget, hinfo, hns, (hwalk hget hinfo).mpr ⟨data, n, hprocesses, hle⟩⟩

end Sent

/-! ### Runs -/

namespace Session

/-- The packets that calls send, in order. -/
def sentBy (s : Session) : List Call → List Sent
  | [] => []
  | call :: rest =>
    match call.sends? with
    | none => (s.perform call).sentBy rest
    | some (packet, base) =>
      ⟨s.evaluator, s.table, packet, base⟩ :: (s.perform call).sentBy rest

/-- The lengths of the packets that calls send to a chain and that are counted. -/
def countedAt (s : Session) (id : ChainId) (calls : List Call) : List Nat :=
  ((s.sentBy calls).filter (·.isCountedAt id)).map (·.packet.data.length)

variable {s : Session} {id : ChainId} {c : Counters}

theorem sentBy_cons {call : Call} (rest : List Call) (hsends : call.sends? = none) :
    s.sentBy (call :: rest) = (s.perform call).sentBy rest := by
  rw [sentBy, hsends]

theorem sentBy_cons_sends {call : Call} {packet : Packet} {base : ChainId} (rest : List Call)
    (hsends : call.sends? = some (packet, base)) : s.sentBy (call :: rest) =
      ⟨s.evaluator, s.table, packet, base⟩ :: (s.perform call).sentBy rest := by
  rw [sentBy, hsends]

/-- What a call counts comes before what the later ones count. -/
theorem countedAt_cons (call : Call) (rest : List Call) :
    s.countedAt id (call :: rest) =
      s.countedAt id [call] ++ (s.perform call).countedAt id rest := by
  have hsent : s.sentBy (call :: rest) = s.sentBy [call] ++ (s.perform call).sentBy rest := by
    cases hsends : call.sends? with
    | none =>
      rw [sentBy_cons rest hsends, sentBy_cons [] hsends]
      rfl
    | some sent =>
      rw [sentBy_cons_sends rest hsends, sentBy_cons_sends [] hsends]
      rfl
  unfold countedAt
  rw [hsent, List.filter_append, List.map_append]

/-- Every packet is sent through a table that a system comes to. -/
theorem Reachable.exists_system_of_sent (h : s.Reachable) {calls : List Call} {sent : Sent}
    (hsent : sent ∈ s.sentBy calls) : ∃ system : System, system.Reachable ∧
      system.table = sent.table := by
  induction calls generalizing s with
  | nil => cases hsent
  | cons call rest ih =>
    cases hsends : call.sends? with
    | none =>
      rw [sentBy_cons rest hsends] at hsent
      exact ih (h.perform call) hsent
    | some packet =>
      rw [sentBy_cons_sends rest hsends] at hsent
      rcases List.mem_cons.mp hsent with rfl | hmem
      · exact h.exists_system
      · exact ih (h.perform call) hmem

/-- A call that sends a packet may count it, and leaves the table alone otherwise. -/
theorem table_perform_sends {call : Call} {packet : Packet} {base : ChainId}
    (hsends : call.sends? = some (packet, base)) :
    (s.perform call).table =
      if (Sent.mk s.evaluator s.table packet base).isCounted then
        s.table.modifyChain base (·.record s.evaluator.worker (UInt64.ofNat packet.data.length))
      else s.table := by
  obtain ⟨hstage, -⟩ := s.perform_sends hsends
  unfold Session.table
  rw [hstage, Stage.table_withTable, Evaluator.table_tryEvaluate]
  rfl

theorem counted_perform (h : s.table.Counted id c) {call : Call} (hsends : call.sends? = none) :
    (s.perform call).table.Counted id c :=
  (s.perform_move hsends).keeps (fun hcounted hwrite => hcounted.write hwrite)
    (fun readers hcounted => hcounted.readers readers) h

theorem counted_perform_sends (h : s.table.Counted id c) {call : Call} {packet : Packet}
    {base : ChainId} (hsends : call.sends? = some (packet, base)) :
    (s.perform call).table.Counted id
      (if (Sent.mk s.evaluator s.table packet base).isCountedAt id then
        c.count (UInt64.ofNat packet.data.length)
      else c) := by
  rw [table_perform_sends hsends]
  unfold Sent.isCountedAt
  cases hcounted : (Sent.mk s.evaluator s.table packet base).isCounted with
  | false => simpa using h
  | true =>
    obtain ⟨chain, info, hget, -⟩ := Evaluator.counts_iff.mp hcounted
    simpa using h.record hget s.evaluator.worker (UInt64.ofNat packet.data.length)

/-- Along a run the counters go up by what is counted. -/
theorem counted_performAll (h : s.table.Counted id c) (calls : List Call) :
    (s.performAll calls).table.Counted id (c.add (.ofLengths (s.countedAt id calls))) := by
  induction calls generalizing s c with
  | nil =>
    have hnothing : c.add (.ofLengths (s.countedAt id [])) = c := c.add_zero
    rw [hnothing]
    exact h
  | cons call rest ih =>
    unfold countedAt at *
    cases hsends : call.sends? with
    | none =>
      rw [sentBy_cons rest hsends]
      exact ih (counted_perform h hsends)
    | some packet =>
      have hstep := ih (counted_perform_sends h hsends)
      rw [sentBy_cons_sends rest hsends, List.filter_cons]
      split at hstep
      · next hat =>
        -- what is counted first is added to what comes after
        rw [if_pos hat, List.map_cons, Counters.ofLengths_cons, Counters.add_count,
          ← Counters.count_add]
        exact hstep
      · next hat =>
        rw [if_neg hat]
        exact hstep

/-- The counters of a base chain account for what its policy decided. Of the calls since the chain
was added they count those that sent a packet to it and came to the end of its rules, and no
others. A call that sends no packet leaves the counters of every chain that stays alone; one that
sends a packet leaves the table as it was, readers included, but for the one counter. -/
theorem Reachable.statistics_account (h : s.Reachable) (calls : List Call) :
    (∀ id, s.table.chains.get? id = none → ∀ chain,
      (s.performAll calls).table.chains.get? id = some chain → chain.isBase = true →
      chain.counters? = some (.ofLengths (s.countedAt id calls))) ∧
    (∀ sent ∈ s.sentBy calls, sent.isCounted = true ↔ sent.EndsByPolicy) ∧
    (∀ call, call.sends? = none → ∀ id chain chain', s.table.chains.get? id = some chain →
      (s.perform call).table.chains.get? id = some chain' → chain'.base = chain.base) ∧
    ∀ call packet base, call.sends? = some (packet, base) →
      (s.perform call).table.readers = s.table.readers ∧
      (s.perform call).table =
        if (Sent.mk s.evaluator s.table packet base).isCounted then
          s.table.modifyChain base (·.record s.evaluator.worker (UInt64.ofNat packet.data.length))
        else s.table := by
  refine ⟨?_, ?_, ?_, ?_⟩
  · intro id hnone chain hget hbase
    have hempty : s.table.Counted id .zero := .of_absent h.wellFormed hnone
    obtain ⟨info, hinfo⟩ := Option.isSome_iff_exists.mp hbase
    have htotal := (counted_performAll hempty calls).total_eq hget hinfo
    rw [Counters.zero_add] at htotal
    rw [Chain.counters?, hinfo, Option.map_some, htotal]
  · intro sent hsent
    obtain ⟨system, hreach, htable⟩ := h.exists_system_of_sent hsent
    exact Sent.isCounted_iff hreach htable
  · intro call hsends id chain chain' hget hget'
    have hdescends : Table.Descends (fun info => info) s.table (s.perform call).table :=
      @Move.keeps (Table.Descends (fun info => info) s.table)
        (fun hdescends hwrite => hdescends.write h.wellFormed hwrite)
        (fun readers hdescends => { hdescends with }) _ _ _ _ (s.perform_move hsends)
        (.refl _ h.wellFormed)
    simpa using hdescends.base_eq hget hget'
  · intro call packet base hsends
    have hsame := table_perform_sends (s := s) hsends
    refine ⟨?_, hsame⟩
    rw [hsame]
    split
    · rfl
    · rfl

/-- Three packets of three bytes come to the policy through another chain: before and during a
transaction that is aborted, and after a commit that is rejected. One is sent to a chain that is no
base chain, and the last one is dropped by a rule. -/
theorem Reachable.statistics_account_goto :
    let packet : Packet := { (default : Packet) with data := [6, 0, 22] }
    let s := Session.start (.create "filter" .initial 2) { Evaluator.plain with worker := 3 } .log
    let calls : List Call := [.begin, .edit (.addChain "input" (some .accept)),
      .edit (.addChain "web" none), .edit (.placeRule ⟨0⟩ [.ofVerdict (.goto ⟨1⟩)] .back),
      .edit (.placeRule ⟨1⟩ [.ofVerdict .leave] .back), .commit, .evaluate packet ⟨0⟩,
      .begin, .edit (.flushChain ⟨1⟩), .tryEvaluate packet ⟨0⟩, .abort,
      .begin, .edit (.placeRule ⟨1⟩ [.ofVerdict (.jump ⟨1⟩)] .back), .commit,
      .evaluate packet ⟨0⟩, .evaluate packet ⟨1⟩,
      .begin, .edit (.placeRule ⟨1⟩ [.ofVerdict (.final .drop)] .front), .commit,
      .evaluate packet ⟨0⟩]
    s.Reachable ∧ s.countedAt ⟨0⟩ calls = [3, 3, 3] ∧
      ∃ chain, (s.performAll calls).table.chains.get? ⟨0⟩ = some chain ∧
        chain.counters? = some ⟨3, 9⟩ := by
  intro packet s calls
  have hreach : s.Reachable := .start "filter" .initial 2 _ .log
  have hcounted : s.countedAt ⟨0⟩ calls = [3, 3, 3] := by decide +kernel
  have hbase : (s.performAll calls).table.chains.get? ⟨0⟩ |>.any (·.isBase) := by decide +kernel
  cases hget : (s.performAll calls).table.chains.get? ⟨0⟩ with
  | none =>
    rw [hget] at hbase
    cases hbase
  | some chain =>
    rw [hget] at hbase
    obtain ⟨haccount, -⟩ := hreach.statistics_account calls
    have hcounters := haccount ⟨0⟩ rfl chain hget hbase
    rw [hcounted] at hcounters
    exact ⟨hreach, hcounted, chain, rfl, hcounters⟩

end Session

end RuleChain
