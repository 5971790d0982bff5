import RuleChain.Proofs.Written

/-! # What a load leaves in the registers

  A load moves bytes of the packet to a register and to those behind it. `Registers.Loaded` says
  position by position what has become of the data registers, without a word on how the bytes got
  there:

  - the bytes of the packet stand from the start of the register on, in order;
  - the register that holds the last of them is zero behind it;
  - every other byte, and the verdict, is what it was.

  `Expr.payload_exact` says that a load that can be built does this if the packet has all the bytes
  asked for, and is a mismatch otherwise. Its sums are sums of numbers, where those of the
  evaluation are sums of machine words that must not wrap.
-/

namespace RuleChain

open Registers (start byteCount Fits)

/-! ### Bytes stored, one by one -/

namespace Data

variable {reg : UInt8} {src : Bytes}

/-- A store changes the bytes from its register on, up to the end of a register. -/
theorem getElem?_store (h : Fits reg src.length) (data : Data) (pos : Nat) :
    (data.store reg src)[pos]? =
      if start reg ≤ pos ∧ pos < start reg + roundUp src.length then
        some (src.getD (pos - start reg) 0)
      else data[pos]? := by
  have hend := h.2
  unfold store
  by_cases hpos : pos < byteCount
  · simp only [Vector.getElem?_eq_getElem hpos, Vector.getElem_ofFn]
    split <;> rfl
  · have hout : ¬(start reg ≤ pos ∧ pos < start reg + roundUp src.length) := by omega
    rw [if_neg hout, Vector.getElem?_eq_none (Nat.not_lt.mp hpos),
      Vector.getElem?_eq_none (Nat.not_lt.mp hpos)]

end Data

/-! ### The window of a load -/

namespace Packet

variable {packet : Packet} {header : Header} {offset : UInt32} {len : UInt8}

/-- The length of the buffer is a machine word, so the positions of a window inside it are, too. -/
theorem load?_of_le (hlength : packet.data.length < UInt64.size) {head : UInt64}
    (hhead : packet.headerOffset? header = some head)
    (hle : head.toNat + offset.toNat + len.toNat ≤ packet.data.length) :
    packet.load? header offset len =
      some ((packet.data.drop (head.toNat + offset.toNat)).take len.toNat) := by
  have hend : head.toNat + offset.toNat + len.toNat < UInt64.size := Nat.lt_of_le_of_lt hle hlength
  simp only [load?, hhead, Option.bind_eq_bind, Option.bind_some]
  rw [if_pos ⟨hle, hend⟩]

theorem load?_eq_none
    (h : ∀ head, packet.headerOffset? header = some head →
      packet.data.length < head.toNat + offset.toNat + len.toNat) :
    packet.load? header offset len = none := by
  unfold load?
  cases hhead : packet.headerOffset? header with
  | none => rfl
  | some head =>
    have hlt := h head hhead
    simp only [Option.bind_eq_bind, Option.bind_some]
    rw [if_neg fun hin => Nat.not_lt.mpr hin.1 hlt]

end Packet

/-! ### Loads -/

/-- The bytes of a packet from `first` on have come to a register: those that were asked for, zeros
behind them as far as their last register goes, and nothing else. -/
structure Registers.Loaded (packet : Packet) (first len : Nat) (reg : UInt8)
    (before after : Registers) : Prop where
  verdict : after.verdict = before.verdict
  bytes : ∀ k < len, after.data[start reg + k]? = packet.data[first + k]?
  padding : ∀ pos, start reg + len ≤ pos → pos / Word.size = (start reg + len - 1) / Word.size →
    after.data[pos]? = some 0
  ahead : ∀ pos < start reg, after.data[pos]? = before.data[pos]?
  behind : ∀ pos, start reg + len ≤ pos → pos / Word.size ≠ (start reg + len - 1) / Word.size →
    after.data[pos]? = before.data[pos]?

/-- A position behind a run of bytes lies in the last register of the run if it comes before the
length of the run rounded up. -/
theorem Registers.div_eq_last_iff {reg : UInt8} {len pos : Nat} (hpos : 0 < len)
    (hle : start reg + len ≤ pos) :
    pos / Word.size = (start reg + len - 1) / Word.size ↔ pos < start reg + roundUp len := by
  unfold start roundUp Word.size at *
  omega

/-- Storing the window of a load is what is said of a load. -/
theorem Registers.loaded_store {packet : Packet} {first len : Nat} {reg : UInt8}
    (hle : first + len ≤ packet.data.length) (hfits : Fits reg len) (regs : Registers) :
    Loaded packet first len reg regs
      { regs with data := Data.store regs.data reg ((packet.data.drop first).take len) } := by
  have hlength : ((packet.data.drop first).take len).length = len := by
    rw [List.length_take, List.length_drop]
    omega
  have hstore := Data.getElem?_store (hlength.symm ▸ hfits) regs.data
  rw [hlength] at hstore
  have hround := le_roundUp len
  constructor
  · rfl
  · intro k hk
    have hin : start reg ≤ start reg + k ∧ start reg + k < start reg + roundUp len := by omega
    have hsource : first + k < packet.data.length := by omega
    rw [hstore, if_pos hin, Nat.add_sub_cancel_left, List.getD_eq_getElem?_getD,
      List.getElem?_take_of_lt hk, List.getElem?_drop, List.getElem?_eq_getElem hsource]
    rfl
  · intro pos hpos hlast
    have hlt := (div_eq_last_iff hfits.1 hpos).mp hlast
    have hnone : ((packet.data.drop first).take len)[pos - start reg]? = none :=
      List.getElem?_eq_none (by omega)
    rw [hstore, if_pos ⟨by omega, hlt⟩, List.getD_eq_getElem?_getD, hnone]
    rfl
  · intro pos hpos
    rw [hstore, if_neg (by omega)]
  · intro pos hpos hlast
    have hge := mt (div_eq_last_iff hfits.1 hpos).mpr hlast
    rw [hstore, if_neg (by omega)]

/-- A load that can be built is built as an expression, and the two mean the same whether or not the
short cut for one register is taken. The packet's bytes come to the registers exactly if the
header is there and the packet reaches far enough; no sum here wraps. A buffer in memory has a
length that is a machine word. -/
theorem Expr.payload_exact {base : Header} {offset : UInt32} {len dreg : UInt8} {p : Payload}
    (h : Payload.build base offset len dreg = .ok p) {packet : Packet}
    (hlength : packet.data.length < UInt64.size) (regs : Registers) :
    ∃ e after, Expr.ofPayload base offset len dreg = .ok e ∧
      p.run? regs packet = some after ∧ e.run? regs packet = some after ∧
      (∀ head, packet.headerOffset? base = some head →
        head.toNat + offset.toNat + len.toNat ≤ packet.data.length →
        Registers.Loaded packet (head.toNat + offset.toNat) len.toNat dreg regs after) ∧
      ((∀ head, packet.headerOffset? base = some head →
          packet.data.length < head.toNat + offset.toNat + len.toNat) →
        after = regs.setVerdict .mismatch) := by
  obtain ⟨e, hbuild⟩ : ∃ e, Expr.ofPayload base offset len dreg = .ok e := by
    rw [ofPayload, h]
    exact ⟨_, rfl⟩
  have heval := Expr.eval_ofPayload hbuild regs packet
  have hrun := p.run?_eq regs packet
  obtain ⟨rfl, rfl, rfl, rfl⟩ := Payload.of_build h
  refine ⟨e, e.eval regs packet, hbuild, ?_, Expr.run?_eq_some_eval e regs packet, ?_, ?_⟩
  · rw [hrun, heval]
  · intro head hhead hle
    rw [heval, Packet.load?_of_le hlength hhead hle]
    exact Registers.loaded_store hle p.fits regs
  · intro hshort
    rw [heval, Packet.load?_eq_none hshort]

/-- The destination port of a packet whose transport header starts at its third byte. -/
theorem Expr.payload_exact_port :
    ∃ e after, Expr.ofPayload .transport 2 2 1 = .ok e ∧
      e.run? ⟨.proceed, .replicate _ 0xFF⟩
        { Packet.ofBytes [0x45, 0, 0xC0, 0, 0, 0x16] with transportOffset := some 2 } =
          some after ∧
      after.data[4]? = some 0 ∧ after.data[5]? = some 0x16 ∧ after.data[6]? = some 0 := by
  obtain ⟨e, after, hbuild, -, hrun, hloaded, -⟩ := @Expr.payload_exact .transport 2 2 1 _ rfl
    { Packet.ofBytes [0x45, 0, 0xC0, 0, 0, 0x16] with transportOffset := some 2 } (by decide)
    ⟨.proceed, .replicate _ 0xFF⟩
  have hport := hloaded 2 rfl (by decide)
  exact ⟨e, after, hbuild, hrun, hport.bytes 0 (by decide), hport.bytes 1 (by decide),
    hport.padding 6 (by decide) (by decide)⟩

end RuleChain
