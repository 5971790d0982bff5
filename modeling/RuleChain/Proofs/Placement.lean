import RuleChain.Command.Run
import RuleChain.Proofs.Tours
import RuleChain.Proofs.Written

/-! # Where a packet starts in its buffer

  Rules see a packet through loads, and loads count from a header. Bytes in front of a packet make
  no difference, as long as its headers are found behind them.

  - `Packet.Behind` relates a packet to the same packet behind other bytes, for one header.
  - `Journey.Indifferent` says that no rule of a journey tells another packet from its own; then
    walks, results and events are the same (`Evaluator.tryEvaluate_of_indifferent`).
  - `Task.evaluation_placement` compares two requests. One has the packet alone, so that the
    transport header is found by itself; the other has it behind other bytes, and there the
    transport header has to be given.
-/

namespace RuleChain

/-! ### Loads -/

/-- Loads from a header give the same for both packets. -/
def Packet.SameLoads (packet packet' : Packet) (header : Header) : Prop :=
  ∀ offset len, packet'.load? header offset len = packet.load? header offset len

/-- The second packet has the bytes of the first one behind others, and a header at the same place
of these bytes, or both are without it. -/
structure Packet.Behind (before : Bytes) (header : Header) (packet packet' : Packet) : Prop where
  data_eq : packet'.data = before ++ packet.data
  length_lt : packet'.data.length < UInt64.size
  offset_eq : (packet'.headerOffset? header).map UInt64.toNat =
    (packet.headerOffset? header).map (before.length + ·.toNat)

/-- A load counts from its header, and the end of the buffer has moved as far as the header has. -/
theorem Packet.Behind.sameLoads {before : Bytes} {header : Header} {packet packet' : Packet}
    (h : packet.Behind before header packet') : packet.SameLoads packet' header := by
  intro offset len
  have hlt := h.length_lt
  have hoffset := h.offset_eq
  unfold load?
  rw [h.data_eq, List.length_append] at *
  cases hhead : packet.headerOffset? header with
  | none =>
    rw [hhead] at hoffset
    rw [Option.map_eq_none_iff.mp hoffset]
    rfl
  | some head =>
    rw [hhead] at hoffset
    obtain ⟨head', hhead', hsum⟩ := Option.map_eq_some_iff.mp hoffset
    rw [hhead', Option.bind_eq_bind, Option.bind_some, Option.bind_some]
    dsimp only at hsum ⊢
    rw [hsum, Nat.add_assoc before.length, List.drop_length_add_append]
    by_cases hle : head.toNat + offset.toNat + len.toNat ≤ packet.data.length
    · rw [if_pos ⟨by omega, by omega⟩, if_pos ⟨hle, by omega⟩]
    · rw [if_neg fun hin => hle (by omega), if_neg fun hin => hle hin.1]

/-! ### Expressions and rules -/

namespace Expr

variable {e : Expr} {exprs : List Expr} {packet packet' : Packet}

/-- The header that an expression loads from. -/
def header? : Expr → Option Header
  | .payload p => some p.base
  | .wordPayload p => some p.payload.base
  | .maskedCompare _ | .compare _ | .immediate _ => none

/-- What an expression does depends on its loads and on the registers. -/
theorem eval_of_sameLoads (h : ∀ header, e.header? = some header → packet.SameLoads packet' header)
    (regs : Registers) : e.eval regs packet' = e.eval regs packet := by
  have hpayload (p : Payload) (hsame : packet.SameLoads packet' p.base) :
      p.run? regs packet' = p.run? regs packet := by
    rw [p.run?_eq, p.run?_eq, hsame]
  refine eval_of_run? (Eq.trans ?_ (run?_eq_some_eval e regs packet))
  cases e with
  | payload p => exact hpayload p (h p.base rfl)
  | wordPayload p =>
    show p.run? regs packet' = p.run? regs packet
    rw [p.run?_eq, p.run?_eq, hpayload p.payload (h p.payload.base rfl)]
  | _ => rfl

theorem evalAll_of_sameLoads
    (h : ∀ e ∈ exprs, ∀ header, e.header? = some header → packet.SameLoads packet' header)
    (regs : Registers) : evalAll exprs regs packet' = evalAll exprs regs packet := by
  induction exprs generalizing regs with
  | nil => rfl
  | cons e rest ih =>
    rw [List.forall_mem_cons] at h
    rw [evalAll_cons, evalAll_cons, eval_of_sameLoads h.1, ih h.2]

end Expr

/-! ### Walks -/

namespace Journey

variable {j : Journey} {packet : Packet}

/-- No rule that can be visited tells another packet from the one of the journey. -/
def Indifferent (j : Journey) (packet : Packet) : Prop :=
  ∀ id chain, j.chains.get? id = some chain → ∀ rule ∈ chain.visibleRules j.generation,
    ∀ regs, Expr.evalAll rule.exprs regs packet = Expr.evalAll rule.exprs regs j.packet

/-- Leaving chains does not look at the packet. -/
theorem nextStop_packet (j : Journey) (packet : Packet) (frame : Frame) (frames : List Frame) :
    nextStop { j with packet } frame frames = j.nextStop frame frames := by
  induction frames generalizing frame with
  | nil =>
    unfold nextStop
    rfl
  | cons back frames ih =>
    unfold nextStop
    simp only [ih back]
    rfl

/-- The walks go through the same places, by induction on the budget; all of them lie within the
chains of the journey, whose rules are indifferent. -/
theorem Indifferent.walk_eq (h : j.Indifferent packet) (left : Nat) (regs : Registers)
    {frame : Frame} (hframe : frame.Within j) {stack : JumpStack Frame}
    (hstack : ∀ back ∈ stack.frames, back.Within j) :
    walk { j with packet } left regs frame stack = j.walk left regs frame stack := by
  induction left generalizing regs frame stack with
  | zero =>
    unfold walk walkBy
    rw [nextStop_packet]
  | succ left ih =>
    cases hnext : j.nextStop frame stack.frames with
    | mk events stop? =>
      have hnext' := (j.nextStop_packet packet frame stack.frames).trans hnext
      cases stop? with
      | none => rw [walk_end hnext, walk_end hnext']
      | some stop =>
        have hstop := nextStop_within hframe hstack hnext
        obtain ⟨id, hget⟩ := hstop.behind.found
        have heval := h id _ hget _ hstop.visible regs.reset
        cases hfollow : j.follow stop
            (Expr.evalAll stop.rule.exprs regs.reset j.packet).verdict with
        | mk more next =>
          cases next with
          | stop result => rw [walk_stop hnext rfl hfollow, walk_stop hnext' heval hfollow]
          | go place stack' =>
            obtain ⟨hplace, hsaved⟩ := follow_within hstop hfollow
            rw [walk_go hnext rfl hfollow, walk_go hnext' heval hfollow, ih _ hplace hsaved]

theorem Indifferent.start_eq (h : j.Indifferent packet) {id : ChainId} {chain : Chain}
    (hget : j.chains.get? id = some chain) :
    start { j with packet } chain = j.start chain :=
  h.walk_eq j.budget .initial (enter_within hget) fun _ hback => absurd hback List.not_mem_nil

end Journey

/-! ### Evaluations -/

/-- Some rule of the table loads from a header. -/
def Table.LoadsFrom (t : Table) (header : Header) : Prop :=
  ∃ id chain, t.chains.get? id = some chain ∧ ∃ rule ∈ chain.rules, ∃ e ∈ rule.exprs,
    e.header? = some header

namespace Evaluator

variable {ev : Evaluator} {t : Table} {packet packet' : Packet}

theorem tryEvaluate_of_indifferent (hns : packet'.ns = packet.ns)
    (htraced : packet'.traced = packet.traced)
    (h : (ev.journey t packet).Indifferent packet') (base : ChainId) :
    (ev.tryEvaluate t packet' base).result = (ev.tryEvaluate t packet base).result ∧
      (ev.tryEvaluate t packet' base).events = (ev.tryEvaluate t packet base).events := by
  rw [result_tryEvaluate, result_tryEvaluate, events_tryEvaluate, events_tryEvaluate]
  cases hfound : baseChain? t base with
  | none => exact ⟨rfl, rfl⟩
  | some found =>
    obtain ⟨hget, -⟩ := baseChain?_eq_some_iff.mp hfound
    have hstart : (ev.journey t packet').start found.1 = (ev.journey t packet).start found.1 :=
      h.start_eq hget
    simp only [told, hstart, hns, htraced]
    exact ⟨trivial, rfl⟩

/-- Packets with the same loads from all headers that the rules look at. -/
theorem tryEvaluate_of_sameLoads (hns : packet'.ns = packet.ns)
    (htraced : packet'.traced = packet.traced)
    (h : ∀ header, t.LoadsFrom header → packet.SameLoads packet' header) (base : ChainId) :
    (ev.tryEvaluate t packet' base).result = (ev.tryEvaluate t packet base).result ∧
      (ev.tryEvaluate t packet' base).events = (ev.tryEvaluate t packet base).events := by
  refine tryEvaluate_of_indifferent hns htraced ?_ base
  intro id chain hget rule hrule regs
  refine Expr.evalAll_of_sameLoads ?_ regs
  intro e he header hheader
  exact h header ⟨id, chain, hget, rule, List.mem_of_mem_filter hrule, e, he, hheader⟩

end Evaluator

/-! ### Requests -/

/-- What a report says of a packet: its disposition, the rules visited, why the walk was given up,
and the trace. -/
def EvaluationReport.findings (r : EvaluationReport) :
    Disposition × Nat × Option String × List TraceEvent :=
  (r.disposition, r.visited, r.aborted, r.trace)

namespace Task

variable {around : Surroundings} {settings : EngineSettings} {request : EvaluationRequest}

/-- The findings are the same for packets with the same loads from all headers that the rules look
at, wherever the packets come from. -/
theorem send_findings {request' : EvaluationRequest} {packet packet' : Packet}
    (hrequest : request'.ruleset = request.ruleset ∧ request'.chain = request.chain ∧
      request'.traced = request.traced)
    (hpacket : packet'.ns = packet.ns ∧ packet'.traced = packet.traced)
    (h : ∀ t, buildTable around settings request.ruleset = .ok t →
      ∀ header, t.LoadsFrom header → packet.SameLoads packet' header) :
    (send around settings request' packet').map (·.findings) =
      (send around settings request packet).map (·.findings) := by
  obtain ⟨hruleset, hchain, htraced⟩ := hrequest
  unfold send
  rw [hruleset, hchain, htraced]
  cases hbuild : buildTable around settings request.ruleset with
  | error e => rfl
  | ok t =>
    cases hbase : baseChain? t request.chain with
    | none => simp only [Except.mapError, bind, Except.bind, hbase]
    | some base =>
      have hsame := fun ev : Evaluator =>
        ev.tryEvaluate_of_sameLoads hpacket.1 hpacket.2 (h t hbuild) base
      simp only [Except.mapError, bind, Except.bind, hbase, Except.map, pure, Except.pure,
        EvaluationReport.findings, (hsame _).1, (hsame _).2]

end Task

namespace EvaluationRequest

variable {request : EvaluationRequest} {before data : Bytes}

/-- A request without offsets takes the buffer to start with an IPv4 header. -/
theorem toPacket_alone (hread : Hex.readDump request.packet = .ok data) (hdata : data ≠ [])
    (hnetwork : request.networkOffset = none) (htransport : request.transportOffset = none) :
    request.toPacket =
      .ok { Packet.ipv4 data with ns := request.ns, traced := request.traced } := by
  have hempty : data.isEmpty = false := by simpa using hdata
  unfold toPacket
  simp only [hread, Except.mapError, bind, Except.bind, hempty, hnetwork, htransport]
  rfl

/-- A network header that does not start the buffer comes without a transport header, unless the
request gives one. -/
theorem toPacket_behind {dump : String} (hread : Hex.readDump dump = .ok (before ++ data))
    (hbefore : before ≠ []) (hdata : data ≠ []) (hlength : (before ++ data).length < UInt64.size)
    {transport : Option UInt64}
    (htransport : ∀ offset, transport = some offset → offset.toNat ≤ (before ++ data).length) :
    toPacket { request with
        packet := dump, networkOffset := some (UInt64.ofNat before.length),
        transportOffset := transport } =
      .ok { Packet.ofBytes (before ++ data) with
        networkOffset := UInt64.ofNat before.length, transportOffset := transport,
        ns := request.ns, traced := request.traced } := by
  rw [List.length_append] at hlength htransport
  have hpos := List.length_pos_iff.mpr hbefore
  have hpos' := List.length_pos_iff.mpr hdata
  have hempty : (before ++ data).isEmpty = false := by simpa using fun h => absurd h hbefore
  have hoffset : (UInt64.ofNat before.length).toNat = before.length :=
    UInt64.toNat_ofNat_of_lt (by omega)
  have hne : UInt64.ofNat before.length ≠ 0 := by
    intro h
    rw [h] at hoffset
    exact absurd hoffset (Nat.ne_of_lt hpos)
  have hlt : (UInt64.ofNat before.length).toNat < (before ++ data).length := by
    rw [hoffset, List.length_append]
    omega
  unfold toPacket
  simp only [hread, Except.mapError, bind, Except.bind, hempty, if_neg hne, if_pos hlt, pure,
    Except.pure]
  cases transport with
  | none => rfl
  | some offset =>
    have hin : ¬(before ++ data).length < offset.toNat := by
      rw [List.length_append]
      exact Nat.not_lt.mpr (htransport offset rfl)
    simp only [if_neg hin]
    rfl

end EvaluationRequest

theorem Packet.ipv4HeaderLength?_le {data : Bytes} {len : Nat}
    (h : ipv4HeaderLength? data = some len) : len ≤ data.length := by
  cases data with
  | nil => cases h
  | cons first rest =>
    dsimp only [ipv4HeaderLength?] at h
    split at h
    · next hwhole =>
      cases h
      exact hwhole.2.2
    · cases h

/-- A packet with the transport header at some place, and the same behind other bytes. -/
theorem Packet.behind_ofBytes {before data : Bytes} {transport transport' : Option UInt64}
    (hlength : (before ++ data).length < UInt64.size)
    (htransport : transport'.map UInt64.toNat = transport.map (before.length + ·.toNat))
    (header : Header) (ns : Namespace) (traced : Bool) :
    Behind before header { ofBytes data with transportOffset := transport, ns, traced }
      { ofBytes (before ++ data) with
        networkOffset := UInt64.ofNat before.length
        transportOffset := transport', ns, traced } := by
  refine ⟨rfl, hlength, ?_⟩
  cases header with
  | network =>
    rw [List.length_append] at hlength
    exact congrArg some (UInt64.toNat_ofNat_of_lt (by omega))
  | transport => exact htransport

/-! ### Packets alone and behind other bytes -/

namespace Task

/-- A file with one rule, which lets in what has four bytes of a transport header. -/
def sampleAround : Surroundings where
  files path :=
    if path = "rules.toml" then
      .file ("[table]\nname=\"filter\"\n[[chain]]\nname=\"input\"\npolicy=\"drop\"\n"
        ++ "[[chain.rule]]\n"
        ++ "expr=[\x7btype=\"payload\",base=\"transport\",offset=2,len=2,dreg=0\x7d,"
        ++ "\x7btype=\"verdict\",verdict=\"accept\"\x7d]").toUTF8
    else .missing
  env := []
  parallelism := 1
  outputFault := none

def sampleRuleset : Ruleset where
  name := "filter"
  ns := .initial
  chains := [⟨"input", some .drop,
    [⟨none, [.payload .transport 2 2 0, .verdict .accept none none]⟩]⟩]

theorem load_sample : Ruleset.load sampleAround.files "rules.toml" = .ok sampleRuleset := by
  have hloaded : (Ruleset.load sampleAround.files "rules.toml").toOption = some sampleRuleset := by
    decide +kernel
  cases hload : Ruleset.load sampleAround.files "rules.toml" with
  | error e =>
    rw [hload] at hloaded
    cases hloaded
  | ok ruleset =>
    rw [hload] at hloaded
    exact congrArg _ (Option.some.inj hloaded)

/-- Four bytes behind an IPv4 header. -/
def sampleRequest : EvaluationRequest where
  ruleset := "rules.toml"
  chain := "input"
  packet := "4500000000000000000000000000000000000000c0000016"
  networkOffset := none
  transportOffset := none
  ns := .initial
  traced := true

section behind

variable {dump : String} {before data : Bytes}

/-- What a request without offsets finds. -/
theorem findings_alone (around : Surroundings) (settings : EngineSettings) (hdata : data ≠ [])
    (hread : Hex.readDump request.packet = .ok data) (hnetwork : request.networkOffset = none)
    (htransport : request.transportOffset = none) :
    (evaluation around settings request).map (·.findings) = (send around settings request
      { Packet.ofBytes data with
        transportOffset := (Packet.ipv4HeaderLength? data).map UInt64.ofNat,
        ns := request.ns, traced := request.traced }).map (·.findings) := by
  rw [evaluation, request.toPacket_alone hread hdata hnetwork htransport]
  rfl

/-- What a request with a network offset finds is what it would find with the packet alone, if the
transport header is at the same place of the packet. -/
theorem findings_behind (around : Surroundings) (settings : EngineSettings) (hdata : data ≠ [])
    (hread : Hex.readDump dump = .ok (before ++ data)) (hbefore : before ≠ [])
    (hlength : (before ++ data).length < UInt64.size) {transport transport' : Option UInt64}
    (htransport : transport'.map UInt64.toNat = transport.map (before.length + ·.toNat))
    (hin : ∀ offset, transport = some offset → offset.toNat ≤ data.length) :
    (evaluation around settings { request with
        packet := dump, networkOffset := some (UInt64.ofNat before.length),
        transportOffset := transport' }).map (·.findings) =
      (send around settings request { Packet.ofBytes data with
        transportOffset := transport, ns := request.ns, traced := request.traced }).map
        (·.findings) := by
  have hin' : ∀ offset, transport' = some offset → offset.toNat ≤ (before ++ data).length := by
    intro offset' hoffset'
    rw [hoffset'] at htransport
    obtain ⟨offset, hoffset, hsum⟩ := Option.map_eq_some_iff.mp htransport.symm
    have hle := hin offset hoffset
    rw [List.length_append]
    omega
  rw [evaluation, EvaluationRequest.toPacket_behind hread hbefore hdata hlength hin']
  refine send_findings ⟨rfl, rfl, rfl⟩ ⟨rfl, rfl⟩ ?_
  intro t ht header hloads
  exact (Packet.behind_ofBytes hlength htransport header _ _).sameLoads

/-- Behind other bytes, the length of the IPv4 header counts from where the packet starts. -/
theorem findings_given (around : Surroundings) (settings : EngineSettings) (hdata : data ≠ [])
    (hread : Hex.readDump dump = .ok (before ++ data)) (hbefore : before ≠ [])
    (hlength : (before ++ data).length < UInt64.size) {len : Nat}
    (hlen : Packet.ipv4HeaderLength? data = some len) :
    (evaluation around settings { request with
        packet := dump, networkOffset := some (UInt64.ofNat before.length),
        transportOffset := some (UInt64.ofNat (before.length + len)) }).map (·.findings) =
      (send around settings request { Packet.ofBytes data with
        transportOffset := some (UInt64.ofNat len), ns := request.ns,
        traced := request.traced }).map (·.findings) := by
  have hle := Packet.ipv4HeaderLength?_le hlen
  have hsum : before.length + data.length < UInt64.size := by
    rw [← List.length_append]
    exact hlength
  have hend : (UInt64.ofNat (before.length + len)).toNat = before.length + len :=
    UInt64.toNat_ofNat_of_lt (by omega)
  have hhead : (UInt64.ofNat len).toNat = len := UInt64.toNat_ofNat_of_lt (by omega)
  refine findings_behind around settings hdata hread hbefore hlength ?_ ?_
  · show some _ = some (before.length + (UInt64.ofNat len).toNat)
    rw [hend, hhead]
  · intro offset hoffset
    cases hoffset
    rw [hhead]
    exact hle

end behind

/-- A request has a packet alone, and another one has it behind other bytes, where it says that the
network header is. If it also says where the transport header is, by the length of the IPv4 header,
it finds the same. If it does not, it finds what a packet without a transport header does, even
where the IPv4 header tells where the transport header is. That is the same if the packet does not
start with a whole IPv4 header, or if no rule loads from the transport header. -/
theorem evaluation_placement (around : Surroundings) (settings : EngineSettings)
    {request : EvaluationRequest} {dump : String} {before data : Bytes}
    (hread : Hex.readDump request.packet = .ok data) (hdata : data ≠ [])
    (hnetwork : request.networkOffset = none) (htransport : request.transportOffset = none)
    (hread' : Hex.readDump dump = .ok (before ++ data)) (hbefore : before ≠ [])
    (hlength : (before ++ data).length < UInt64.size) :
    let behind (transport : Option UInt64) : EvaluationRequest := { request with
      packet := dump, networkOffset := some (UInt64.ofNat before.length),
      transportOffset := transport }
    let findings (r : EvaluationRequest) := (evaluation around settings r).map (·.findings)
    (∀ len, Packet.ipv4HeaderLength? data = some len →
      findings (behind (some (UInt64.ofNat (before.length + len)))) = findings request) ∧
    findings (behind none) = (send around settings request
      { Packet.ofBytes data with ns := request.ns, traced := request.traced }).map
        (·.findings) ∧
    ((Packet.ipv4HeaderLength? data = none ∨
        ∀ t, buildTable around settings request.ruleset = .ok t → ¬t.LoadsFrom .transport) →
      findings (behind none) = findings request) := by
  intro behind findings
  have halone := findings_alone around settings hdata hread hnetwork htransport
  have hwithout : findings (behind none) = (send around settings request
      { Packet.ofBytes data with ns := request.ns, traced := request.traced }).map
        (·.findings) :=
    findings_behind around settings hdata hread' hbefore hlength rfl fun _ hnone => nomatch hnone
  refine ⟨?_, hwithout, ?_⟩
  · intro len hlen
    rw [hlen] at halone
    exact (findings_given around settings hdata hread' hbefore hlength hlen).trans halone.symm
  · intro hsame
    refine hwithout.trans (Eq.trans ?_ halone.symm)
    refine send_findings ⟨rfl, rfl, rfl⟩ ⟨rfl, rfl⟩ ?_
    intro t ht header hloads
    cases header with
    | network => exact fun _ _ => rfl
    | transport =>
      rcases hsame with hnone | hnetworkOnly
      · rw [hnone]
        exact fun _ _ => rfl
      · exact absurd hloads (hnetworkOnly t ht)

/-- With both offsets given, two bytes in front of the packet make no difference. -/
theorem evaluation_placement_given :
    (evaluation sampleAround .default { sampleRequest with
        packet := "aabb" ++ sampleRequest.packet, networkOffset := some 2,
        transportOffset := some 22 }).map (·.findings) =
      (evaluation sampleAround .default sampleRequest).map (·.findings) := by
  let data : Bytes := 0x45 :: .replicate 19 0 ++ [0xC0, 0, 0, 0x16]
  have hread : Hex.readDump sampleRequest.packet = .ok data := by decide +kernel
  have hread' : Hex.readDump ("aabb" ++ sampleRequest.packet) = .ok ([0xAA, 0xBB] ++ data) := by
    decide +kernel
  obtain ⟨hgiven, -⟩ := evaluation_placement sampleAround .default hread (by decide) rfl rfl hread'
    (by decide) (by decide)
  exact hgiven 20 (by decide)

/-- With the network offset alone, the packet behind two bytes is dropped by the policy: the rule
that has let it in does not find the transport header. -/
theorem evaluation_placement_lost :
    ((evaluation sampleAround .default sampleRequest).toOption.map fun report =>
        (report.disposition, report.visited)) = some (.accept, 1) ∧
    ((evaluation sampleAround .default { sampleRequest with
        packet := "aabb" ++ sampleRequest.packet, networkOffset := some 2 }).toOption.map
        fun report => (report.disposition, report.visited)) = some (.drop, 1) := by
  unfold evaluation send buildTable sampleRequest
  dsimp only
  rw [load_sample]
  decide +kernel

end Task

end RuleChain
