import RuleChain.Proofs.Comparisons
import RuleChain.Proofs.Evaluations
import RuleChain.Proofs.Loads

/-! # Evaluations stay inside their buffers

  An evaluation looks at no bound of the register file. It relies on the tests that were made when
  its expressions were built, and those are made in several places, with short cuts that touch a
  whole register and stores that round up.

  - `operand_ok_iff` is what all builders ask of a run of bytes.
  - `Expr.Constructed` lists the ways to come by an expression, with the run of bytes that it may
    write to, and `Expr.Confined` says that evaluating it touches no byte outside the registers and
    changes none outside that run.
  - `Evaluator.tryEvaluate?` is an evaluation in which every access is checked.
  - `Expr.accesses_in_range`: the checks never fail.
-/

namespace RuleChain

open Registers (start byteCount Fits)

/-! ### What builders accept -/

/-- There are one to sixteen bytes, and from the start of the register on they end, rounded up to
whole registers, inside the data registers. -/
def Registers.Holds (reg : UInt8) (len : Nat) : Prop :=
  1 ≤ len ∧ len ≤ 16 ∧ 4 * reg.toNat + roundUp len ≤ 64

instance (reg : UInt8) (len : Nat) : Decidable (Registers.Holds reg len) :=
  inferInstanceAs (Decidable (_ ∧ _ ∧ _))

theorem operand_ok_iff {reg : UInt8} {len : Nat} {fault : ExprFault} :
    (if long : maxOperand < len then .error fault
      else checkOperand reg len (Nat.not_lt.mp long)) = .ok () ↔ Registers.Holds reg len := by
  unfold Registers.Holds
  split
  · next long =>
    refine iff_of_false (fun hok => by cases hok) ?_
    unfold maxOperand at long
    omega
  · next long =>
    rw [checkOperand_eq_ok_iff, Fits, Registers.start_eq]
    unfold maxOperand at long
    unfold byteCount
    omega

theorem outcome_payload (base : Header) (offset : UInt32) (len dreg : UInt8) :
    outcome (Payload.build base offset len dreg) =
      if long : maxOperand < len.toNat then .error (.payloadTooLong len.toNat)
      else checkOperand dreg len.toNat (Nat.not_lt.mp long) := by
  unfold Payload.build
  split
  · rfl
  · split <;> exact Eq.symm ‹_›

/-- Whatever is asked, a comparison is accepted as if there were no short cut. -/
theorem outcome_ofCompare_any (sreg : UInt8) (op : CompareOp) (data : Bytes) :
    outcome (Expr.ofCompare sreg op data) = outcome (Compare.build sreg op data) := by
  by_cases hop : op = .eq
  · rw [hop, outcome_ofCompare]
  · rw [Expr.ofCompare, if_neg fun h => hop h.1, outcome_map]

/-! ### What expressions touch -/

/-- The run of bytes that an expression is written down to write to. -/
def ExprSpec.destination? : ExprSpec → Option (UInt8 × Nat)
  | .payload _ _ len dreg => some (dreg, len.toNat)
  | .immediate dreg text => (constant? text).map fun bytes => (dreg, bytes.length)
  | .compare .. | .verdict .. => none

namespace Expr

/-- The run of bytes that an expression writes to. -/
def destination? : Expr → Option (UInt8 × Nat)
  | .payload p => some (p.dreg, p.len.toNat)
  | .wordPayload p => some (p.payload.dreg, p.payload.len.toNat)
  | .immediate (.data operand) => some (operand.reg, operand.data.length)
  | .maskedCompare _ | .compare _ | .immediate (.verdict _) => none

/-- The ways to come by an expression: a builder of its kind, a builder that chooses the kind, or
the written form. The run of bytes is that of a load or a constant, as it was asked for. -/
inductive Constructed : Expr → Option (UInt8 × Nat) → Prop where
  | compare {sreg : UInt8} {op : CompareOp} {data : Bytes} {c : Compare}
    (h : Compare.build sreg op data = .ok c) : Constructed (.compare c) none
  | exact {sreg : UInt8} {data : Bytes} {c : MaskedCompare}
    (h : MaskedCompare.exact sreg data = .ok c) : Constructed (.maskedCompare c) none
  | masked {sreg : UInt8} {mask data : Bytes} {c : MaskedCompare}
    (h : MaskedCompare.ofBytes sreg mask data = .ok c) : Constructed (.maskedCompare c) none
  | words {sreg : UInt8} {mask data : UInt32} {c : MaskedCompare}
    (h : MaskedCompare.ofWords sreg mask data = .ok c) : Constructed (.maskedCompare c) none
  | payload {base : Header} {offset : UInt32} {len dreg : UInt8} {p : Payload}
    (h : Payload.build base offset len dreg = .ok p) :
    Constructed (.payload p) (some (dreg, len.toNat))
  | wordPayload {base : Header} {offset : UInt32} {len dreg : UInt8} {p : Payload}
    {short : WordPayload} (h : Payload.build base offset len dreg = .ok p)
    (hshort : WordPayload.ofPayload? p = some short) :
    Constructed (.wordPayload short) (some (dreg, len.toNat))
  | verdict (v : Verdict) : Constructed (.immediate (.verdict v)) none
  | bytes {dreg : UInt8} {data : Bytes} {i : Immediate} (h : Immediate.ofBytes dreg data = .ok i) :
    Constructed (.immediate i) (some (dreg, data.length))
  | ofCompare {sreg : UInt8} {op : CompareOp} {data : Bytes} {e : Expr}
    (h : ofCompare sreg op data = .ok e) : Constructed e none
  | ofMasked {sreg : UInt8} {mask data : Bytes} {e : Expr} (h : ofMasked sreg mask data = .ok e) :
    Constructed e none
  | ofPayload {base : Header} {offset : UInt32} {len dreg : UInt8} {e : Expr}
    (h : ofPayload base offset len dreg = .ok e) : Constructed e (some (dreg, len.toNat))
  | ofVerdict (v : Verdict) : Constructed (ofVerdict v) none
  | ofBytes {dreg : UInt8} {data : Bytes} {e : Expr} (h : ofBytes dreg data = .ok e) :
    Constructed e (some (dreg, data.length))
  | written {ids : String → Option ChainId} {spec : ExprSpec} {e : Expr}
    (h : spec.toExpr ids = .ok e) : Constructed e spec.destination?

/-- Evaluating the expression touches no byte outside the registers. The data bytes that it may
change are those of the given run, rounded up to whole registers; without a run there are none. -/
def Confined (e : Expr) (run : Option (UInt8 × Nat)) : Prop :=
  ∀ regs packet, ∃ after, e.run? regs packet = some after ∧
    ∀ pos, after.data[pos]? ≠ regs.data[pos]? →
      ∃ reg len, run = some (reg, len) ∧ start reg ≤ pos ∧ pos < start reg + roundUp len

variable {e : Expr}

/-! #### Builders keep to the run asked for -/

theorem destination?_ofCompare {sreg : UInt8} {op : CompareOp} {data : Bytes}
    (h : ofCompare sreg op data = .ok e) : e.destination? = none := by
  unfold ofCompare at h
  split at h
  · obtain ⟨c, -, rfl⟩ := map_eq_ok_iff.mp h
    rfl
  · obtain ⟨c, -, rfl⟩ := map_eq_ok_iff.mp h
    rfl

theorem destination?_ofMasked {sreg : UInt8} {mask data : Bytes}
    (h : ofMasked sreg mask data = .ok e) : e.destination? = none := by
  obtain ⟨c, -, rfl⟩ := map_eq_ok_iff.mp h
  rfl

theorem destination?_ofPayload {base : Header} {offset : UInt32} {len dreg : UInt8}
    (h : ofPayload base offset len dreg = .ok e) : e.destination? = some (dreg, len.toNat) := by
  obtain ⟨p, hbuild, rfl⟩ := map_eq_ok_iff.mp h
  obtain ⟨-, -, rfl, rfl⟩ := Payload.of_build hbuild
  by_cases hword : p.isWordSized = true
  · simp only [WordPayload.ofPayload?, dif_pos hword]
    rfl
  · simp only [WordPayload.ofPayload?, dif_neg hword]
    rfl

theorem destination?_immediate {dreg : UInt8} {data : Bytes} {i : Immediate}
    (h : Immediate.ofBytes dreg data = .ok i) :
    (immediate i).destination? = some (dreg, data.length) := by
  obtain ⟨operand, hbuild, rfl⟩ := map_eq_ok_iff.mp h
  obtain ⟨rfl, rfl⟩ := Operand.of_build hbuild
  rfl

theorem destination?_ofBytes {dreg : UInt8} {data : Bytes} (h : ofBytes dreg data = .ok e) :
    e.destination? = some (dreg, data.length) := by
  obtain ⟨i, hbuild, rfl⟩ := map_eq_ok_iff.mp h
  exact destination?_immediate hbuild

theorem destination?_toExpr {ids : String → Option ChainId} {spec : ExprSpec}
    (h : spec.toExpr ids = .ok e) : e.destination? = spec.destination? := by
  cases spec with
  | payload base offset len dreg => exact destination?_ofPayload (mapError_eq_ok_iff.mp h)
  | compare sreg op text mask =>
    obtain ⟨constant, -, hbuild⟩ := bind_eq_ok_iff.mp h
    cases mask with
    | none => exact destination?_ofCompare (mapError_eq_ok_iff.mp hbuild)
    | some mask =>
      dsimp only at hbuild
      split at hbuild
      · obtain ⟨bytes, -, hbuild⟩ := bind_eq_ok_iff.mp hbuild
        exact destination?_ofMasked (mapError_eq_ok_iff.mp hbuild)
      · cases hbuild
  | immediate dreg text =>
    obtain ⟨constant, hconstant, hbuild⟩ := bind_eq_ok_iff.mp h
    rw [destination?_ofBytes (mapError_eq_ok_iff.mp hbuild), ExprSpec.destination?,
      ExprSpec.of_readHex hconstant]
    rfl
  | verdict word target queue =>
    obtain ⟨v, -, rfl⟩ := map_eq_ok_iff.mp h
    rfl

theorem Constructed.destination?_eq {run : Option (UInt8 × Nat)} (h : Constructed e run) :
    e.destination? = run := by
  cases h with
  | compare _ => rfl
  | exact _ => rfl
  | masked _ => rfl
  | words _ => rfl
  | payload h =>
    obtain ⟨-, -, rfl, rfl⟩ := Payload.of_build h
    rfl
  | @wordPayload base offset len dreg p short h hshort =>
    obtain ⟨-, -, rfl, rfl⟩ := Payload.of_build h
    unfold WordPayload.ofPayload? at hshort
    split at hshort
    · cases hshort
      rfl
    · cases hshort
  | verdict _ => rfl
  | bytes h => exact destination?_immediate h
  | ofCompare h => exact destination?_ofCompare h
  | ofMasked h => exact destination?_ofMasked h
  | ofPayload h => exact destination?_ofPayload h
  | ofVerdict _ => rfl
  | ofBytes h => exact destination?_ofBytes h
  | written h => exact destination?_toExpr h

/-! #### Evaluation keeps to it -/

/-- An expression that only writes the verdict. -/
theorem confined_of_data_eq (h : ∀ regs packet, (e.eval regs packet).data = regs.data)
    (run : Option (UInt8 × Nat)) : e.Confined run := by
  intro regs packet
  refine ⟨e.eval regs packet, run?_eq_some_eval e regs packet, ?_⟩
  intro pos hpos
  rw [h] at hpos
  exact absurd rfl hpos

/-- A store changes no byte outside the registers that it fills. -/
theorem mem_of_store_ne {reg : UInt8} {src : Bytes} (hfits : Fits reg src.length) {data : Data}
    {pos : Nat} (h : (data.store reg src)[pos]? ≠ data[pos]?) :
    start reg ≤ pos ∧ pos < start reg + roundUp src.length := by
  rw [Data.getElem?_store hfits] at h
  by_contra hout
  rw [if_neg hout] at h
  exact h rfl

theorem Payload.confined (p : Payload) :
    (payload p).Confined (some (p.dreg, p.len.toNat)) := by
  intro regs packet
  refine ⟨_, p.run?_eq regs packet, ?_⟩
  intro pos hpos
  rw [← Packet.window?_eq_load?] at hpos
  cases hwindow : packet.window? p.base p.offset p.len with
  | none =>
    rw [hwindow] at hpos
    exact absurd rfl hpos
  | some window =>
    rw [hwindow] at hpos
    have hlength := Packet.length_of_window? hwindow
    have hin := mem_of_store_ne (hlength ▸ p.fits) hpos
    rw [hlength] at hin
    exact ⟨_, _, rfl, hin⟩

/-- Every expression stays inside the registers, and changes nothing but its own run. -/
theorem confined (e : Expr) : e.Confined e.destination? := by
  cases e with
  | maskedCompare c =>
    apply confined_of_data_eq
    intro regs packet
    have hrun := run?_eq_some_eval (.maskedCompare c) regs packet
    simp only [run?, MaskedCompare.run?, Option.bind_eq_bind, Option.bind_eq_some_iff] at hrun
    obtain ⟨word, -, hafter⟩ := hrun
    rw [← Option.some.inj hafter]
    split <;> rfl
  | compare c =>
    apply confined_of_data_eq
    intro regs packet
    have hrun := run?_eq_some_eval (.compare c) regs packet
    simp only [run?, Compare.run?, Option.bind_eq_bind, Option.bind_eq_some_iff] at hrun
    obtain ⟨bytes, -, hafter⟩ := hrun
    rw [← Option.some.inj hafter]
    split <;> rfl
  | payload p => exact Payload.confined p
  | wordPayload p =>
    intro regs packet
    obtain ⟨after, hrun, hchanged⟩ := Payload.confined p.payload regs packet
    exact ⟨after, (p.run?_eq regs packet).trans hrun, hchanged⟩
  | immediate i =>
    cases i with
    | verdict v => exact confined_of_data_eq (fun _ _ => rfl) _
    | data operand =>
      intro regs packet
      refine ⟨_, Registers.store?_eq operand.fits, ?_⟩
      intro pos hpos
      exact ⟨_, _, rfl, mem_of_store_ne operand.fits hpos⟩

end Expr

/-- A window lies in the packet, behind its header. -/
theorem Packet.of_window? {packet : Packet} {header : Header} {offset : UInt32} {len : UInt8}
    {window : Bytes} (h : packet.window? header offset len = some window) :
    ∃ head, packet.headerOffset? header = some head ∧
      head.toNat + offset.toNat + len.toNat ≤ packet.data.length ∧
      window = (packet.data.drop (head.toNat + offset.toNat)).take len.toNat := by
  rw [window?_eq_load?] at h
  obtain ⟨head, hhead, hwindow⟩ := Option.bind_eq_some_iff.mp h
  dsimp only at hwindow
  split at hwindow
  · next hle =>
    exact ⟨head, hhead, hle.1, (Option.some.inj hwindow).symm⟩
  · cases hwindow

/-! ### Evaluation with all accesses checked -/

/-- With checks expressions come to what they come to without them. -/
theorem Expr.evalAllBy_run? (exprs : List Expr) (regs : Registers) (packet : Packet) :
    evalAllBy run? exprs regs packet = some (evalAll exprs regs packet) := by
  induction exprs generalizing regs with
  | nil => rfl
  | cons e rest ih =>
    rw [evalAllBy, run?_eq_some_eval, Option.bind_eq_bind, Option.bind_some, ih, evalAll_cons]
    split <;> rfl

namespace Journey

/-- Accesses that are checked. There are no registers if an expression would touch a byte outside
them, and a stack is not looked at if more places are saved than there is room for. -/
def Access.checked : Access Option where
  eval := Expr.run?
  look stack := if stack.size ≤ JumpStack.capacity then some () else none

variable {j : Journey}

theorem Access.look_checked {stack : JumpStack Frame} (h : stack.size ≤ JumpStack.capacity) :
    checked.look stack = some () :=
  if_pos h

/-- Leaving chains takes places from the stack. -/
theorem size_le_of_nextStop {frame : Frame} {frames : List Frame} {events : List TraceEvent}
    {stop : Stop} (h : j.nextStop frame frames = (events, some stop)) :
    stop.stack.size ≤ frames.length := by
  induction frames generalizing frame events with
  | nil =>
    unfold nextStop at h
    split at h
    · cases h
      exact Nat.le_refl _
    · cases h
  | cons back frames ih =>
    unfold nextStop at h
    split at h
    · cases h
      exact Nat.le_refl _
    · cases hstop : j.nextStop back frames with
      | mk events' stop' =>
        simp only [hstop] at h
        cases h
        exact Nat.le_succ_of_le (ih hstop)

/-- No verdict makes the stack too large: a jump asks for room before it saves a place. -/
theorem size_le_of_follow {stop : Stop} {verdict : Verdict} {more : List TraceEvent}
    {place : Frame} {stack : JumpStack Frame} (hsize : stop.stack.size ≤ JumpStack.capacity)
    (h : j.follow stop verdict = (more, .go place stack)) : stack.size ≤ JumpStack.capacity := by
  unfold follow at h
  cases verdict with
  | mismatch =>
    cases h
    exact hsize
  | proceed =>
    cases h
    exact hsize
  | final d => cases h
  | jump target =>
    dsimp only at h
    split at h
    · cases h
    · split at h
      · cases h
      · next hpush =>
        cases h
        exact JumpStack.size_le_of_push? hpush
  | goto target =>
    dsimp only at h
    split at h
    · cases h
    · cases h
      exact hsize
  | leave =>
    dsimp only at h
    unfold JumpStack.pop? at h
    cases hframes : stop.stack.frames with
    | nil =>
      rw [hframes] at h
      cases h
    | cons back rest =>
      rw [hframes] at h
      cases h
      unfold JumpStack.size at *
      rw [hframes, List.length_cons] at hsize
      exact Nat.le_of_succ_le hsize

/-- The checks of a walk do not fail, by induction on the budget; the invariant is the size of the
stack. -/
theorem walkBy_checked {stack : JumpStack Frame} (hsize : stack.size ≤ JumpStack.capacity)
    (left : Nat) (regs : Registers) (frame : Frame) :
    walkBy .checked j left regs frame stack = some (j.walk left regs frame stack) := by
  induction left generalizing regs frame stack with
  | zero =>
    unfold walk walkBy
    cases hnext : j.nextStop frame stack.frames with
    | mk events stop? => cases stop? <;> rfl
  | succ left ih =>
    cases hnext : j.nextStop frame stack.frames with
    | mk events stop? =>
      cases stop? with
      | none =>
        rw [walk_end hnext]
        unfold walkBy
        rw [hnext]
        rfl
      | some stop =>
        have hstop := Nat.le_trans (size_le_of_nextStop hnext) hsize
        have hregs : Expr.evalAllBy Access.checked.eval stop.rule.exprs regs.reset j.packet =
            some (Expr.evalAll stop.rule.exprs regs.reset j.packet) :=
          Expr.evalAllBy_run? stop.rule.exprs regs.reset j.packet
        unfold walkBy
        simp only [hnext, hregs, Option.bind_eq_bind, Option.bind_some]
        cases hfollow : j.follow stop
            (Expr.evalAll stop.rule.exprs regs.reset j.packet).verdict with
        | mk more next =>
          cases next with
          | go place stack' =>
            have hsize' := size_le_of_follow hstop hfollow
            rw [walk_go hnext rfl hfollow]
            simp only [Access.look_checked hsize', ih hsize', Option.bind_some]
            rfl
          | stop result =>
            rw [walk_stop hnext rfl hfollow]
            rfl

theorem startBy_checked (chain : Chain) : startBy .checked j chain = some (j.start chain) :=
  walkBy_checked (Nat.zero_le _) _ _ _

end Journey

/-- Counts a packet in the shard of a worker, if there is one. -/
def ChainStats.record? (stats : ChainStats) (worker : Nat) (length : UInt64) :
    Option ChainStats :=
  if worker % stats.shards.length < stats.shards.length then some (stats.record worker length)
  else none

theorem ChainStats.record?_eq (stats : ChainStats) (worker : Nat) (length : UInt64) :
    stats.record? worker length = some (stats.record worker length) :=
  if_pos (Nat.mod_lt _ stats.shards_pos)

/-- To change a chain is to change what is found. -/
theorem ChainMap.modify_congr {m : ChainMap} {id : ChainId} {chain : Chain}
    (hget : m.get? id = some chain) {f g : Chain → Chain} (h : f chain = g chain) :
    m.modify id f = m.modify id g := by
  have hslot := Option.join_eq_some_iff.mp hget
  have hslots : m.slots.modify id.index (·.map f) = m.slots.modify id.index (·.map g) := by
    apply List.ext_getElem?
    intro i
    rw [List.getElem?_modify, List.getElem?_modify]
    by_cases hi : id.index = i
    · rw [← hi, hslot]
      simp [h]
    · simp [hi]
  rw [modify, modify, hslots]

namespace Evaluator

/-- Counts a packet in the statistics of a base chain, if its worker has a shard. -/
def count? (t : Table) (base : ChainId) (info : BaseChain) (worker : Nat) (length : UInt64) :
    Option Table := do
  let stats ← info.stats.record? worker length
  return t.modifyChain base fun chain => { chain with base := some { info with stats } }

theorem count?_eq {t : Table} {base : ChainId} {chain : Chain} {info : BaseChain}
    (hget : t.chains.get? base = some chain) (hinfo : chain.base = some info) (worker : Nat)
    (length : UInt64) :
    count? t base info worker length = some (t.modifyChain base (·.record worker length)) := by
  rw [count?, ChainStats.record?_eq]
  refine congrArg (fun chains => some { t with chains }) (ChainMap.modify_congr hget ?_)
  rw [Chain.record, hinfo]
  rfl

/-- Sends a packet through a base chain; `none` if that would touch a byte outside the registers, a
place outside the stack or a shard that is not there. -/
def tryEvaluate? (ev : Evaluator) (t : Table) (packet : Packet) (base : ChainId) :
    Option Evaluated :=
  tryEvaluateBy .checked count? ev t packet base

/-- No check of an evaluation fails, whatever the table, the packet and its header offsets are. -/
theorem tryEvaluate?_eq (ev : Evaluator) (t : Table) (packet : Packet) (base : ChainId) :
    ev.tryEvaluate? t packet base = some (ev.tryEvaluate t packet base) := by
  unfold tryEvaluate? tryEvaluate tryEvaluateBy
  simp only
  cases hfound : baseChain? t.enter base with
  | none => rfl
  | some found =>
    obtain ⟨chain, info⟩ := found
    obtain ⟨hget, hinfo⟩ := baseChain?_eq_some_iff.mp hfound
    have hstart : (ev.journey t.enter packet).startBy .direct chain =
      (ev.journey t.enter packet).start chain := rfl
    by_cases hns : info.ns ≠ packet.ns
    · simp only [if_pos hns]
      rfl
    · simp only [if_neg hns, Journey.startBy_checked, count?_eq hget hinfo, Option.bind_some,
        hstart, Id.run, bind]
      cases ((ev.journey t.enter packet).start chain).result with
      | error error => rfl
      | ok ending => cases ending <;> rfl

end Evaluator

/-- A comparison, a load or a constant can be built, by the builder of its kind and by the one that
chooses among kinds, exactly if its registers hold its bytes. Every expression that can be come by
stays inside the registers, and changes no data byte but those that it was built to write; a window
of a packet lies inside the packet. Therefore no check of any evaluation fails: every table consists
of such expressions, and packets and header offsets may be any. -/
theorem Expr.accesses_in_range :
    (∀ sreg op data,
      ((∃ c, Compare.build sreg op data = .ok c) ↔ Registers.Holds sreg data.length) ∧
      ((∃ e, ofCompare sreg op data = .ok e) ↔ Registers.Holds sreg data.length)) ∧
    (∀ base offset len dreg,
      ((∃ p, Payload.build base offset len dreg = .ok p) ↔ Registers.Holds dreg len.toNat) ∧
      ((∃ e, ofPayload base offset len dreg = .ok e) ↔ Registers.Holds dreg len.toNat)) ∧
    (∀ dreg data,
      ((∃ i, Immediate.ofBytes dreg data = .ok i) ↔ Registers.Holds dreg data.length) ∧
      ((∃ e, ofBytes dreg data = .ok e) ↔ Registers.Holds dreg data.length)) ∧
    (∀ e run, Constructed e run → e.Confined run) ∧
    (∀ packet header offset len window, Packet.window? packet header offset len = some window →
      ∃ head, packet.headerOffset? header = some head ∧
        head.toNat + offset.toNat + len.toNat ≤ packet.data.length ∧
        window = (packet.data.drop (head.toNat + offset.toNat)).take len.toNat) ∧
    ∀ ev t packet base, Evaluator.tryEvaluate? ev t packet base =
      some (ev.tryEvaluate t packet base) := by
  refine ⟨?_, ?_, ?_, ?_, ?_, Evaluator.tryEvaluate?_eq⟩
  · intro sreg op data
    rw [← outcome_eq_ok_iff, ← outcome_eq_ok_iff, outcome_ofCompare_any, outcome_compare,
      operand_ok_iff]
    exact ⟨Iff.rfl, Iff.rfl⟩
  · intro base offset len dreg
    rw [← outcome_eq_ok_iff, ← outcome_eq_ok_iff, ofPayload, outcome_map, outcome_payload,
      operand_ok_iff]
    exact ⟨Iff.rfl, Iff.rfl⟩
  · intro dreg data
    rw [← outcome_eq_ok_iff, ← outcome_eq_ok_iff, ofBytes, outcome_map, Immediate.ofBytes,
      outcome_map, outcome_operand, operand_ok_iff]
    exact ⟨Iff.rfl, Iff.rfl⟩
  · intro e run hbuilt
    rw [← hbuilt.destination?_eq]
    exact e.confined
  · intro packet header offset len window hwindow
    exact Packet.of_window? hwindow

/-- Five bytes fit the last two registers and change nothing before them; from the last register on
there is no room for them. -/
theorem Expr.accesses_in_range_last_registers :
    (∃ e, ofPayload .transport 2 5 14 = .ok e ∧ e.Confined (some (14, 5))) ∧
      ¬∃ e, ofPayload .transport 2 5 15 = .ok e := by
  obtain ⟨-, hpayload, -, hconfined, -, -⟩ := Expr.accesses_in_range
  obtain ⟨e, he⟩ := (hpayload .transport 2 5 14).2.mpr (by decide)
  refine ⟨⟨e, he, hconfined e _ (.ofPayload he)⟩, ?_⟩
  rw [(hpayload .transport 2 5 15).2]
  decide

end RuleChain
