import RuleChain.Proofs.Meaning
import RuleChain.Proofs.Words
import RuleChain.Ruleset.Basic

/-! # The meaning of written rules

  What a rule says as it is written down, without building an expression of it: a load copies bytes
  of the packet, a comparison compares two numbers, a constant is stored, and a jump leads to a
  chain by its name.

  - `ExprSpec.run?` gives this meaning; a text that is not hexadecimal has none.
  - `ExprSpec.runAll?` runs the expressions of a rule.
  - `ExprSpec.run?_of_toExpr` says that the expression that is built means the same, whether or not
    it is a short cut for one register, and `ExprSpec.runAll?_of_mapM` says so for rules.
-/

namespace RuleChain

/-! ### Results -/

section results

variable {ε ε' α β : Type} {x : Except ε α}

theorem map_eq_ok_iff {f : α → β} {b : β} : x.map f = .ok b ↔ ∃ a, x = .ok a ∧ f a = b := by
  cases x <;> simp [Except.map]

theorem mapError_eq_ok_iff {f : ε → ε'} {a : α} : x.mapError f = .ok a ↔ x = .ok a := by
  cases x <;> simp [Except.mapError]

theorem bind_eq_ok_iff {f : α → Except ε β} {b : β} :
    x >>= f = .ok b ↔ ∃ a, x = .ok a ∧ f a = .ok b := by
  cases x <;> simp [bind, Except.bind]

/-- All results of a list are there, in order. -/
theorem mapM_eq_ok_iff {f : α → Except ε β} {as : List α} {bs : List β} :
    as.mapM f = .ok bs ↔ List.Forall₂ (fun a b => f a = .ok b) as bs := by
  induction as generalizing bs with
  | nil => simp [pure, Except.pure, eq_comm]
  | cons a rest ih =>
    simp only [List.mapM_cons, bind_eq_ok_iff, List.forall₂_cons_left_iff, ih]
    constructor
    · rintro ⟨b, hb, bs', hbs, hcons⟩
      exact ⟨b, bs', hb, hbs, (Except.ok.inj hcons).symm⟩
    · rintro ⟨b, bs', hb, hbs, rfl⟩
      exact ⟨b, hb, bs', hbs, rfl⟩

end results

/-! ### Data registers -/

namespace Data

/-- The bytes from the start of a register. -/
def bytes (data : Data) (reg : UInt8) (len : Nat) : Bytes :=
  (data.toList.drop (Registers.start reg)).take len

/-- Puts bytes at the start of a register, with zeros up to the end of the last one touched. -/
def store (data : Data) (reg : UInt8) (bytes : Bytes) : Data :=
  .ofFn fun i =>
    if Registers.start reg ≤ i.val ∧ i.val < Registers.start reg + roundUp bytes.length then
      bytes.getD (i.val - Registers.start reg) 0
    else data.get i

end Data

namespace Registers

variable {regs : Registers} {reg : UInt8} {src : Bytes}

/-- Writing bytes that reach up to the end of a register. -/
theorem overwrite_eq_store {bytes : Bytes} (hlength : bytes.length = roundUp src.length)
    (hbytes : ∀ k, bytes.getD k 0 = src.getD k 0) :
    regs.overwrite (start reg) bytes = { regs with data := Data.store regs.data reg src } := by
  unfold overwrite Data.store
  refine congrArg (fun data => (⟨regs.verdict, .ofFn data⟩ : Registers)) ?_
  funext i
  -- a position lies before the bytes, in them or behind them
  by_cases hle : start reg ≤ i.val
  · by_cases hlt : i.val < start reg + roundUp src.length
    · have hk : i.val - start reg < bytes.length := by omega
      rw [if_pos hle, if_pos ⟨hle, hlt⟩, ← hbytes]
      simp [List.getD_eq_getElem?_getD, hk]
    · have hk : bytes.length ≤ i.val - start reg := by omega
      rw [if_pos hle, if_neg fun h => hlt h.2]
      simp [List.getD_eq_getElem?_getD, hk]
      rfl
  · rw [if_neg hle, if_neg fun h => hle h.1]
    rfl

theorem getD_padded (src : Bytes) (k : Nat) : (padded src).getD k 0 = src.getD k 0 := by
  unfold padded
  simp only [List.getD_eq_getElem?_getD, List.getElem?_append]
  split
  · rfl
  · next hle =>
    rw [List.getElem?_eq_none (Nat.not_lt.mp hle), List.getElem?_replicate]
    split <;> rfl

theorem store?_eq (h : Fits reg src.length) :
    regs.store? reg src = some { regs with data := Data.store regs.data reg src } := by
  have hle := le_roundUp src.length
  have hlength : (padded src).length = roundUp src.length := by
    simp only [padded, List.length_append, List.length_replicate]
    omega
  rw [store?, if_pos h.2, overwrite_eq_store hlength (getD_padded src)]

/-- Bytes that fit one register may be written as a word. -/
theorem setWord?_eq (h : Fits reg src.length) (hsize : src.length ≤ Word.size) :
    regs.setWord? reg (Word.ofBytes src) =
      some { regs with data := Data.store regs.data reg src } := by
  obtain ⟨hpos, hend⟩ := h
  have hround : roundUp src.length = Word.size := by
    unfold roundUp Word.size at *
    omega
  have hlength : (Word.toBytes (Word.ofBytes src)).length = roundUp src.length := hround.symm
  have hbytes : ∀ k, (Word.toBytes (Word.ofBytes src)).getD k 0 = src.getD k 0 := by
    intro k
    by_cases hk : k < 4
    · exact Word.getD_toBytes_ofBytes src hk
    · have hle : src.length ≤ k := Nat.le_trans hsize (Nat.not_lt.mp hk)
      have hword : (Word.toBytes (Word.ofBytes src)).length ≤ k := Nat.not_lt.mp hk
      rw [List.getD_eq_getElem?_getD, List.getD_eq_getElem?_getD, List.getElem?_eq_none hle,
        List.getElem?_eq_none hword]
  rw [hround] at hend
  rw [setWord?, if_pos hend, overwrite_eq_store hlength hbytes]

theorem Fits.end_le {len : Nat} (h : Fits reg len) : start reg + len ≤ byteCount :=
  Nat.le_trans (Nat.add_le_add_left (le_roundUp len) _) h.2

theorem bytes?_eq {len : Nat} (h : start reg + len ≤ byteCount) :
    regs.bytes? reg len = some (Data.bytes regs.data reg len) := by
  rw [bytes?, if_pos h]
  rfl

theorem length_bytes {len : Nat} (h : start reg + len ≤ byteCount) (data : Data) :
    (Data.bytes data reg len).length = len := by
  have htotal : data.toList.length = byteCount := Vector.length_toList
  rw [Data.bytes, List.length_take, List.length_drop, htotal]
  omega

end Registers

/-! ### Packets -/

/-- The bytes behind a header, if the packet has the header and all of them. Positions are numbers
of 64 bits. -/
def Packet.load? (packet : Packet) (header : Header) (offset : UInt32) (len : UInt8) :
    Option Bytes := do
  let head ← packet.headerOffset? header
  let first := head.toNat + offset.toNat
  if first + len.toNat ≤ packet.data.length ∧ first + len.toNat < UInt64.size then
    some ((packet.data.drop first).take len.toNat)
  else none

/-- The sums do not wrap, or there is no window. -/
theorem Packet.window?_eq_load? (packet : Packet) (header : Header) (offset : UInt32)
    (len : UInt8) : packet.window? header offset len = packet.load? header offset len := by
  unfold window? load?
  cases packet.headerOffset? header with
  | none => rfl
  | some head =>
    simp only [Option.bind_eq_bind, Option.bind_some, addOffset?]
    by_cases hfirst : head.toNat + offset.toNat < UInt64.size
    · have hsum : (head + offset.toUInt64).toNat = head.toNat + offset.toNat := by
        rw [UInt64.toNat_add, UInt32.toNat_toUInt64]
        exact Nat.mod_eq_of_lt hfirst
      rw [UInt32.toNat_toUInt64, if_pos hfirst, Option.bind_some, hsum, UInt8.toNat_toUInt64]
      by_cases hpast : head.toNat + offset.toNat + len.toNat < UInt64.size
      · have hend : (head + offset.toUInt64 + len.toUInt64).toNat =
            head.toNat + offset.toNat + len.toNat := by
          rw [UInt64.toNat_add, hsum, UInt8.toNat_toUInt64]
          exact Nat.mod_eq_of_lt hpast
        rw [if_pos hpast, Option.bind_some, hend]
        simp only [hpast, and_true]
      · rw [if_neg hpast, if_neg fun h => hpast h.2]
        rfl
    · rw [UInt32.toNat_toUInt64, if_neg hfirst, if_neg fun h => hfirst (by omega)]
      rfl

/-! ### Built expressions -/

theorem Operand.of_build {tooLong : Nat → ExprFault} {reg : UInt8} {data : Bytes}
    {operand : Operand} (h : build tooLong reg data = .ok operand) :
    operand.reg = reg ∧ operand.data = data := by
  unfold build at h
  split at h
  · cases h
  · split at h
    · cases h
    · cases h
      exact ⟨rfl, rfl⟩

theorem Compare.of_build {sreg : UInt8} {op : CompareOp} {data : Bytes} {c : Compare}
    (h : build sreg op data = .ok c) :
    c.op = op ∧ c.operand.reg = sreg ∧ c.operand.data = data := by
  obtain ⟨operand, hoperand, rfl⟩ := map_eq_ok_iff.mp h
  exact ⟨rfl, Operand.of_build hoperand⟩

/-- A comparison reads a number from the registers. -/
theorem Compare.run?_eq (c : Compare) (regs : Registers) :
    c.run? regs = some
      (if c.op.Relates (bigEndian (Data.bytes regs.data c.operand.reg c.operand.data.length))
        (bigEndian c.operand.data) then regs else regs.setVerdict .mismatch) := by
  have hlength := Registers.length_bytes c.operand.fits.end_le regs.data
  unfold run?
  rw [Registers.bytes?_eq c.operand.fits.end_le]
  simp only [Option.bind_eq_bind, Option.bind_some, bytesOrder_eq hlength,
    CompareOp.holds_compare]
  rfl

namespace MaskedCompare

variable {sreg : UInt8} {mask data : Bytes} {c : MaskedCompare}

theorem of_ofBytes (h : ofBytes sreg mask data = .ok c) :
    c.sreg = sreg ∧ c.mask = Word.ofBytes mask ∧
      c.data = Word.ofBytes data &&& Word.ofBytes mask ∧ data.length ≤ Word.size ∧
      mask.length = data.length := by
  unfold ofBytes at h
  split at h
  · cases h
  · next hword =>
    obtain ⟨-, hsize⟩ := not_or.mp hword
    split at h
    · cases h
    · next hmask =>
      unfold ofWords at h
      split at h
      · cases h
      · cases h
        exact ⟨rfl, rfl, rfl, Nat.not_lt.mp hsize, not_not.mp hmask⟩

/-- A comparison of words looks at as many bytes as the constant has. -/
theorem run?_eq (h : ofBytes sreg mask data = .ok c) (regs : Registers) :
    c.run? regs = some
      (if maskBytes (Data.bytes regs.data sreg data.length) mask = maskBytes data mask then regs
        else regs.setVerdict .mismatch) := by
  obtain ⟨rfl, hmask, hdata, hsize, hlength⟩ := of_ofBytes h
  have hbytes := Registers.length_bytes c.fits.end_le regs.data
  have htake : (Data.bytes regs.data c.sreg Word.size).take mask.length =
      Data.bytes regs.data c.sreg data.length := by
    rw [Data.bytes, List.take_take, Nat.min_eq_left (hlength ▸ hsize), hlength]
    rfl
  have hiff := @Word.masked_eq_iff (Data.bytes regs.data c.sreg Word.size) data mask
    (hlength ▸ hsize) (by omega) hlength.symm
  rw [htake] at hiff
  unfold run? Registers.word?
  rw [Registers.bytes?_eq c.fits.end_le]
  simp only [Option.bind_eq_bind, Option.map_some, Option.bind_some, hmask, hdata, hiff]
  rfl

/-- Under a mask of ones nothing is lost, and bytes are equal if they spell the same number. -/
theorem run?_exact (h : exact sreg data = .ok c) (regs : Registers) :
    c.run? regs = some
      (if bigEndian (Data.bytes regs.data sreg data.length) = bigEndian data then regs
        else regs.setVerdict .mismatch) := by
  obtain ⟨hsreg, -, -, hsize, -⟩ := of_ofBytes h
  have hfits := c.fits.end_le
  rw [hsreg] at hfits
  have hlength : (Data.bytes regs.data sreg data.length).length = data.length :=
    Registers.length_bytes (by omega) regs.data
  have hones : maskBytes (Data.bytes regs.data sreg data.length)
      (.replicate data.length 0xFF) = Data.bytes regs.data sreg data.length := by
    have hbytes := maskBytes_ones (Data.bytes regs.data sreg data.length)
    rwa [hlength] at hbytes
  rw [run?_eq h, hones, maskBytes_ones]
  simp only [bigEndian_eq_iff hlength]

end MaskedCompare

theorem Payload.of_build {base : Header} {offset : UInt32} {len dreg : UInt8} {p : Payload}
    (h : build base offset len dreg = .ok p) :
    p.base = base ∧ p.offset = offset ∧ p.len = len ∧ p.dreg = dreg := by
  unfold build at h
  split at h
  · cases h
  · split at h
    · cases h
    · cases h
      exact ⟨rfl, rfl, rfl, rfl⟩

theorem Payload.run?_eq (p : Payload) (regs : Registers) (packet : Packet) :
    p.run? regs packet = some (match packet.load? p.base p.offset p.len with
      | some window => { regs with data := Data.store regs.data p.dreg window }
      | none => regs.setVerdict .mismatch) := by
  unfold run? source?
  rw [← Packet.window?_eq_load?]
  cases hwindow : packet.window? p.base p.offset p.len with
  | none => rfl
  | some window =>
    have hlength := Packet.length_of_window? hwindow
    exact Registers.store?_eq (hlength ▸ p.fits)

/-- The short cut is no different. -/
theorem WordPayload.run?_eq (p : WordPayload) (regs : Registers) (packet : Packet) :
    p.run? regs packet = p.payload.run? regs packet := by
  unfold run? Payload.run? Payload.source?
  cases hwindow : packet.window? p.payload.base p.payload.offset p.payload.len with
  | none => rfl
  | some window =>
    have hfits : Registers.Fits p.payload.dreg window.length := by
      rw [Packet.length_of_window? hwindow]
      exact p.payload.fits
    dsimp only
    split
    · next hsize => rw [Registers.setWord?_eq hfits hsize, Registers.store?_eq hfits]
    · rfl

namespace Expr

variable {regs : Registers} {packet : Packet} {e : Expr}

theorem eval_of_run? {regs' : Registers} (h : e.run? regs packet = some regs') :
    e.eval regs packet = regs' :=
  Option.some.inj ((run?_eq_some_eval e regs packet).symm.trans h)

theorem eval_ofPayload {base : Header} {offset : UInt32} {len dreg : UInt8}
    (h : ofPayload base offset len dreg = .ok e) (regs : Registers) (packet : Packet) :
    e.eval regs packet = match packet.load? base offset len with
      | some window => { regs with data := Data.store regs.data dreg window }
      | none => regs.setVerdict .mismatch := by
  apply eval_of_run?
  obtain ⟨p, hbuild, rfl⟩ := map_eq_ok_iff.mp h
  obtain ⟨rfl, rfl, rfl, rfl⟩ := Payload.of_build hbuild
  by_cases hword : p.isWordSized = true
  · simp only [WordPayload.ofPayload?, dif_pos hword]
    exact (WordPayload.run?_eq _ _ _).trans (Payload.run?_eq _ _ _)
  · simp only [WordPayload.ofPayload?, dif_neg hword]
    exact Payload.run?_eq _ _ _

/-- Both kinds of comparison compare numbers. -/
theorem eval_ofCompare {sreg : UInt8} {op : CompareOp} {data : Bytes}
    (h : ofCompare sreg op data = .ok e) (regs : Registers) (packet : Packet) :
    e.eval regs packet =
      if op.Relates (bigEndian (Data.bytes regs.data sreg data.length)) (bigEndian data) then regs
      else regs.setVerdict .mismatch := by
  apply eval_of_run?
  unfold ofCompare at h
  split at h
  · next hexact =>
    obtain ⟨rfl, -, -⟩ := hexact
    obtain ⟨c, hbuild, rfl⟩ := map_eq_ok_iff.mp h
    exact MaskedCompare.run?_exact hbuild regs
  · obtain ⟨c, hbuild, rfl⟩ := map_eq_ok_iff.mp h
    obtain ⟨rfl, rfl, rfl⟩ := Compare.of_build hbuild
    exact Compare.run?_eq _ _

theorem eval_ofMasked {sreg : UInt8} {mask data : Bytes} (h : ofMasked sreg mask data = .ok e)
    (regs : Registers) (packet : Packet) :
    e.eval regs packet =
      if maskBytes (Data.bytes regs.data sreg data.length) mask = maskBytes data mask then regs
      else regs.setVerdict .mismatch := by
  obtain ⟨c, hbuild, rfl⟩ := map_eq_ok_iff.mp h
  exact eval_of_run? (MaskedCompare.run?_eq hbuild regs)

theorem eval_ofBytes {dreg : UInt8} {data : Bytes} (h : ofBytes dreg data = .ok e)
    (regs : Registers) (packet : Packet) :
    e.eval regs packet = { regs with data := Data.store regs.data dreg data } := by
  obtain ⟨i, hbuild, rfl⟩ := map_eq_ok_iff.mp h
  obtain ⟨operand, hoperand, rfl⟩ := map_eq_ok_iff.mp hbuild
  obtain ⟨rfl, rfl⟩ := Operand.of_build hoperand
  exact eval_of_run? (Registers.store?_eq operand.fits)

end Expr

/-! ### Written expressions -/

/-- A verdict in which chains are known by name. -/
inductive NamedVerdict where
  | proceed
  | mismatch
  | jump (target : String)
  | goto (target : String)
  | leave
  | final (disposition : Disposition)
deriving DecidableEq, Repr

namespace NamedVerdict

/-- A rule goes on as long as its tests hold. -/
def ofTest (test : Prop) [Decidable test] : NamedVerdict := if test then .proceed else .mismatch

/-- The verdict with the chains that names lead to. -/
def resolve? (ids : String → Option ChainId) : NamedVerdict → Option Verdict
  | .proceed => some .proceed
  | .mismatch => some .mismatch
  | .jump target => (ids target).map .jump
  | .goto target => (ids target).map .goto
  | .leave => some .leave
  | .final d => some (.final d)

variable {ids : String → Option ChainId} {named : NamedVerdict}

/-- Only jumps and gotos look at names. -/
theorem of_resolve? {v : Verdict} (h : named.resolve? ids = some v) :
    match v with
    | .proceed => named = .proceed
    | .mismatch => named = .mismatch
    | .jump id => ∃ target, named = .jump target ∧ ids target = some id
    | .goto id => ∃ target, named = .goto target ∧ ids target = some id
    | .leave => named = .leave
    | .final d => named = .final d := by
  cases named with
  | jump target =>
    obtain ⟨id, hid, rfl⟩ := Option.map_eq_some_iff.mp h
    exact ⟨target, rfl, hid⟩
  | goto target =>
    obtain ⟨id, hid, rfl⟩ := Option.map_eq_some_iff.mp h
    exact ⟨target, rfl, hid⟩
  | _ =>
    cases h
    rfl

end NamedVerdict

/-- What a word says; a queue without a number is queue zero. -/
def VerdictWord.named? (word : VerdictWord) (target : Option String) (queue : Option UInt16) :
    Option NamedVerdict :=
  match word with
  | .accept => some (.final .accept)
  | .drop => some (.final .drop)
  | .queue => some (.final (.queue (queue.getD 0)))
  | .stolen => some (.final .stolen)
  | .proceed => some .proceed
  | .leave => some .leave
  | .jump => target.map .jump
  | .goto => target.map .goto

namespace ExprSpec

/-- The bytes that a text spells. -/
def constant? (text : String) : Option Bytes := (Hex.readField text).toOption

/-- What an expression says about a packet and the data registers: a verdict, and the data
afterwards. -/
def run? (packet : Packet) (data : Data) : ExprSpec → Option (NamedVerdict × Data)
  | .payload base offset len dreg =>
    match packet.load? base offset len with
    | some window => some (.proceed, data.store dreg window)
    | none => some (.mismatch, data)
  | .compare sreg op text none => do
    let constant ← constant? text
    let bytes := data.bytes sreg constant.length
    some (.ofTest (op.Relates (bigEndian bytes) (bigEndian constant)), data)
  | .compare sreg .eq text (some mask) => do
    let constant ← constant? text
    let mask ← constant? mask
    let bytes := data.bytes sreg constant.length
    some (.ofTest (maskBytes bytes mask = maskBytes constant mask), data)
  | .compare _ _ _ (some _) => none
  | .immediate dreg text => do
    let constant ← constant? text
    some (.proceed, data.store dreg constant)
  | .verdict word target queue => (word.named? target queue).map (·, data)

/-- Runs expressions from left to right until one of them gives a verdict. -/
def runAll? (packet : Packet) (data : Data) : List ExprSpec → Option (NamedVerdict × Data)
  | [] => some (.proceed, data)
  | spec :: rest => do
    let (said, data) ← spec.run? packet data
    if said = .proceed then runAll? packet data rest else some (said, data)

/-! ### Expressions mean what is written -/

variable {ids : String → Option ChainId} {spec : ExprSpec} {e : Expr}

theorem of_readHex {kind : ExprKind} {text : String} {bytes : Bytes}
    (h : readHex kind text = .ok bytes) : constant? text = some bytes := by
  unfold readHex at h
  unfold constant?
  split at h
  · next heq =>
    cases h
    rw [heq]
    rfl
  · cases h

theorem of_resolve {target : Option String} {id : ChainId} (h : resolve ids target = .ok id) :
    ∃ name, target = some name ∧ ids name = some id := by
  cases target with
  | none => cases h
  | some name =>
    refine ⟨name, rfl, ?_⟩
    cases hid : ids name with
    | none =>
      simp only [resolve, hid] at h
      cases h
    | some found =>
      simp only [resolve, hid] at h
      cases h
      rfl

theorem of_toVerdict {word : VerdictWord} {target : Option String} {queue : Option UInt16}
    {v : Verdict} (h : toVerdict ids word target queue = .ok v) :
    ∃ named, word.named? target queue = some named ∧ named.resolve? ids = some v := by
  cases word with
  | jump =>
    obtain ⟨id, hid, rfl⟩ := map_eq_ok_iff.mp h
    obtain ⟨name, rfl, hname⟩ := of_resolve hid
    exact ⟨.jump name, rfl, by simp [NamedVerdict.resolve?, hname]⟩
  | goto =>
    obtain ⟨id, hid, rfl⟩ := map_eq_ok_iff.mp h
    obtain ⟨name, rfl, hname⟩ := of_resolve hid
    exact ⟨.goto name, rfl, by simp [NamedVerdict.resolve?, hname]⟩
  | _ =>
    cases h
    exact ⟨_, rfl, rfl⟩

/-- A test that is made with the verdict register as it was. -/
theorem resolve?_ofTest (ids : String → Option ChainId) (test : Prop) [Decidable test]
    (data : Data) :
    ∃ v, (NamedVerdict.ofTest test).resolve? ids = some v ∧
      (if test then (⟨.proceed, data⟩ : Registers)
        else Registers.setVerdict ⟨.proceed, data⟩ .mismatch) = ⟨v, data⟩ := by
  unfold NamedVerdict.ofTest
  split
  · exact ⟨_, rfl, rfl⟩
  · exact ⟨_, rfl, rfl⟩

/-- A built expression does what is written, with the chains that names lead to. -/
theorem run?_of_toExpr (h : spec.toExpr ids = .ok e) (packet : Packet) (data : Data) :
    ∃ named data' v, spec.run? packet data = some (named, data') ∧ named.resolve? ids = some v ∧
      e.eval ⟨.proceed, data⟩ packet = ⟨v, data'⟩ := by
  cases spec with
  | payload base offset len dreg =>
    have heval := Expr.eval_ofPayload (mapError_eq_ok_iff.mp h) ⟨.proceed, data⟩ packet
    rw [run?]
    cases hload : packet.load? base offset len with
    | some window =>
      rw [hload] at heval
      exact ⟨_, _, _, rfl, rfl, heval⟩
    | none =>
      rw [hload] at heval
      exact ⟨_, _, _, rfl, rfl, heval⟩
  | compare sreg op text mask =>
    obtain ⟨constant, hconstant, hbuild⟩ := bind_eq_ok_iff.mp h
    have hread := of_readHex hconstant
    cases mask with
    | none =>
      have heval := Expr.eval_ofCompare (mapError_eq_ok_iff.mp hbuild) ⟨.proceed, data⟩ packet
      obtain ⟨v, hv, htest⟩ := resolve?_ofTest ids (op.Relates
        (bigEndian (data.bytes sreg constant.length)) (bigEndian constant)) data
      refine ⟨_, data, v, ?_, hv, heval.trans htest⟩
      rw [run?, hread]
      rfl
    | some mask =>
      dsimp only at hbuild
      split at hbuild
      · next hop =>
        subst hop
        obtain ⟨bytes, hmask, hbuild⟩ := bind_eq_ok_iff.mp hbuild
        have hreadMask := of_readHex hmask
        have heval := Expr.eval_ofMasked (mapError_eq_ok_iff.mp hbuild) ⟨.proceed, data⟩ packet
        obtain ⟨v, hv, htest⟩ := resolve?_ofTest ids
          (maskBytes (data.bytes sreg constant.length) bytes = maskBytes constant bytes) data
        refine ⟨_, data, v, ?_, hv, heval.trans htest⟩
        rw [run?, hread, hreadMask]
        rfl
      · cases hbuild
  | immediate dreg text =>
    obtain ⟨constant, hconstant, h⟩ := bind_eq_ok_iff.mp h
    have hread := of_readHex hconstant
    have heval := Expr.eval_ofBytes (mapError_eq_ok_iff.mp h) ⟨.proceed, data⟩ packet
    refine ⟨.proceed, data.store dreg constant, .proceed, ?_, rfl, heval⟩
    rw [run?, hread]
    rfl
  | verdict word target queue =>
    obtain ⟨v, hverdict, rfl⟩ := map_eq_ok_iff.mp h
    obtain ⟨named, hnamed, hv⟩ := of_toVerdict hverdict
    refine ⟨named, data, v, ?_, hv, rfl⟩
    rw [run?, hnamed]
    rfl

/-- So do the expressions of a rule. -/
theorem runAll?_of_mapM {specs : List ExprSpec} {exprs : List Expr}
    (h : specs.mapM (toExpr ids) = .ok exprs) (packet : Packet) (data : Data) :
    ∃ named data' v, runAll? packet data specs = some (named, data') ∧
      named.resolve? ids = some v ∧ Expr.Runs packet exprs data v data' := by
  have hbuilt := mapM_eq_ok_iff.mp h
  clear h
  induction hbuilt generalizing data with
  | nil => exact ⟨_, _, _, rfl, rfl, .finish⟩
  | @cons spec e rest _ hfirst _ ih =>
    obtain ⟨named, data₁, v, hrun, hv, heval⟩ := run?_of_toExpr hfirst packet data
    by_cases hgoes : named = .proceed
    · subst hgoes
      cases hv
      obtain ⟨named', data', v', hrest, hv', hruns⟩ := ih data₁
      refine ⟨named', data', v', ?_, hv', .next heval hruns⟩
      simp only [runAll?, hrun, Option.bind_eq_bind, Option.bind_some, if_true, hrest]
    · have hne : v ≠ .proceed := by
        intro hv'
        rw [hv'] at hv
        exact hgoes (NamedVerdict.of_resolve? hv)
      refine ⟨named, data₁, v, ?_, hv, .stop heval hne⟩
      simp only [runAll?, hrun, Option.bind_eq_bind, Option.bind_some, if_neg hgoes]

end ExprSpec

end RuleChain
