import Mathlib.Data.List.Induction
import RuleChain.Proofs.Written

/-! # Comparisons

  There are two kinds of comparison. One holds register bytes against a constant in the order of
  dictionaries, the other masks a register as one word. This file says what they compare, and that
  it makes no difference which one is chosen.

  - `Compare.numeric`: bytes are compared as the numbers that they are the big-endian encodings of.
  - `Expr.compare_faithful`: where the short cut for one register is chosen, the general comparison
    would have been refused for the same reason or would leave the same registers; under a mask,
    some byte must differ in a bit of the mask.

  To compare refusals, `outcome` forgets what has been built.
-/

namespace RuleChain

open Registers (start byteCount)

/-! ### Outcomes -/

section outcome

variable {ε α β : Type} {x : Except ε α}

/-- Whether something could be built, and why not. -/
def outcome (x : Except ε α) : Except ε Unit := x.map fun _ => ()

theorem outcome_eq_ok_iff : outcome x = .ok () ↔ ∃ a, x = .ok a := by
  cases x <;> simp [outcome, Except.map]

theorem outcome_eq_error_iff {fault : ε} : outcome x = .error fault ↔ x = .error fault := by
  cases x <;> simp [outcome, Except.map]

@[simp] theorem outcome_map (f : α → β) : outcome (x.map f) = outcome x := by
  cases x <;> rfl

/-- A step that refuses lets nothing else through. -/
theorem refuse_eq_ok_iff {p : Prop} [Decidable p] {fault : ε} {a : α} :
    (if p then .error fault else x) = .ok a ↔ ¬p ∧ x = .ok a := by
  split <;> simp [*]

end outcome

/-! ### When a comparison can be built -/

/-- For bytes of one register the bounds test asks whether there is such a register. -/
theorem checkOperand_of_le_size {reg : UInt8} {len : Nat} (short : len ≤ maxOperand)
    (hpos : 0 < len) (hsize : len ≤ Word.size) :
    checkOperand reg len short =
      if Registers.count ≤ reg.toNat then .error (.span (.noSuchRegister reg)) else .ok () := by
  rw [checkOperand_eq, if_neg (Nat.ne_of_gt hpos)]
  by_cases hreg : Registers.count ≤ reg.toNat
  · rw [if_pos hreg, if_pos hreg]
  · have hend : ¬byteCount < start reg + roundUp len := by
      unfold Registers.count at hreg
      unfold Word.size at hsize
      unfold byteCount start roundUp Word.size
      omega
    rw [if_neg hreg, if_neg hreg, if_neg hend]

/-- Bytes can be put at a register if they are not too many and pass the test. -/
theorem outcome_operand (tooLong : Nat → ExprFault) (reg : UInt8) (data : Bytes) :
    outcome (Operand.build tooLong reg data) =
      if long : maxOperand < data.length then .error (tooLong data.length)
      else checkOperand reg data.length (Nat.not_lt.mp long) := by
  unfold Operand.build
  split
  · rfl
  · split <;> exact Eq.symm ‹_›

theorem outcome_compare (sreg : UInt8) (op : CompareOp) (data : Bytes) :
    outcome (Compare.build sreg op data) =
      if long : maxOperand < data.length then .error (.compareTooLong data.length)
      else checkOperand sreg data.length (Nat.not_lt.mp long) := by
  rw [Compare.build, outcome_map, outcome_operand]

/-- The comparison under a mask wants a constant for one register and a mask as long. -/
theorem outcome_masked (sreg : UInt8) (mask data : Bytes) :
    outcome (MaskedCompare.ofBytes sreg mask data) =
      if data.isEmpty ∨ Word.size < data.length then .error (.wordLength data.length)
      else if mask.length ≠ data.length then .error (.maskLength mask.length data.length)
      else checkOperand sreg Word.size (by decide) := by
  unfold MaskedCompare.ofBytes MaskedCompare.ofWords
  split
  · rfl
  · split
    · rfl
    · split <;> exact Eq.symm ‹_›

/-- The short cut is refused if the general comparison would be, and with the same complaint. -/
theorem outcome_ofCompare (sreg : UInt8) (data : Bytes) :
    outcome (Expr.ofCompare sreg .eq data) = outcome (Compare.build sreg .eq data) := by
  unfold Expr.ofCompare
  split
  · next hexact =>
    obtain ⟨-, hne, hsize⟩ := hexact
    have hpos : 0 < data.length := List.length_pos_iff.mpr hne
    have hword : ¬(data.isEmpty = true ∨ Word.size < data.length) := by
      simp [hne, hsize]
    have hshort : ¬maxOperand < data.length := by
      unfold maxOperand Word.size at *
      omega
    have hmask : ¬(List.replicate data.length (0xFF : UInt8)).length ≠ data.length := by simp
    rw [outcome_map, MaskedCompare.exact, outcome_masked, outcome_compare, if_neg hword,
      if_neg hmask, dif_neg hshort, checkOperand_of_le_size _ hpos hsize,
      checkOperand_of_le_size _ (by decide) (Nat.le_refl _)]
  · rw [outcome_map]

/-- What a comparison under a mask needs. -/
theorem ofMasked_ok_iff {sreg : UInt8} {mask data : Bytes} :
    (∃ e, Expr.ofMasked sreg mask data = .ok e) ↔
      1 ≤ data.length ∧ data.length ≤ 4 ∧ mask.length = data.length ∧ sreg.toNat ≤ 15 := by
  have hempty : data.isEmpty = true ↔ data.length = 0 := by
    rw [List.isEmpty_iff, List.length_eq_zero_iff]
  rw [← outcome_eq_ok_iff, Expr.ofMasked, outcome_map, outcome_masked,
    checkOperand_of_le_size _ (by decide) (Nat.le_refl _)]
  simp only [refuse_eq_ok_iff, hempty, and_true]
  unfold Registers.count Word.size
  omega

/-! ### What a comparison under a mask sees -/

/-- Some register byte and the byte of the constant at its place differ in a bit of the mask. -/
def Registers.DiffersUnder (regs : Registers) (sreg : UInt8) (mask data : Bytes) : Prop :=
  ∃ i byte m constant, regs.data[start sreg + i]? = some byte ∧ mask[i]? = some m ∧
    data[i]? = some constant ∧ byte &&& m ≠ constant &&& m

/-- The bytes from a register on are at the positions from its start on. -/
theorem Data.getElem?_bytes {k len : Nat} (data : Data) (reg : UInt8) (hk : k < len) :
    (data.bytes reg len)[k]? = data[start reg + k]? := by
  rw [bytes, List.getElem?_take_of_lt hk, List.getElem?_drop]
  exact Vector.getElem?_toList

theorem getElem?_maskBytes_eq_some_iff {bytes mask : Bytes} {k : Nat} {byte : UInt8} :
    (maskBytes bytes mask)[k]? = some byte ↔
      ∃ b m, bytes[k]? = some b ∧ mask[k]? = some m ∧ b &&& m = byte := by
  rw [maskBytes, List.getElem?_zipWith_eq_some]

/-- Bytes under a mask are the same if no place shows a difference. -/
theorem maskBytes_eq_iff {as bs mask : Bytes} (ha : as.length = mask.length)
    (hb : bs.length = mask.length) :
    maskBytes as mask = maskBytes bs mask ↔
      ∀ (i : Nat) (a m b : UInt8), as[i]? = some a → mask[i]? = some m → bs[i]? = some b →
        a &&& m = b &&& m := by
  constructor
  · intro h i a m b hai hmi hbi
    have hleft := getElem?_maskBytes_eq_some_iff.mpr ⟨a, m, hai, hmi, rfl⟩
    have hright := getElem?_maskBytes_eq_some_iff.mpr ⟨b, m, hbi, hmi, rfl⟩
    rw [h, hright] at hleft
    exact (Option.some.inj hleft).symm
  · intro h
    apply List.ext_getElem (by rw [length_maskBytes ha, length_maskBytes hb])
    intro i hleft hright
    rw [length_maskBytes ha] at hleft
    have hsame := h i _ _ _ (List.getElem?_eq_getElem (ha ▸ hleft)) (List.getElem?_eq_getElem hleft)
      (List.getElem?_eq_getElem (hb ▸ hleft))
    simpa [maskBytes] using hsame

theorem Registers.differsUnder_iff {regs : Registers} {sreg : UInt8} {mask data : Bytes}
    (hend : start sreg + data.length ≤ byteCount) (hmask : mask.length = data.length) :
    regs.DiffersUnder sreg mask data ↔
      maskBytes (Data.bytes regs.data sreg data.length) mask ≠ maskBytes data mask := by
  have hbytes := length_bytes hend regs.data
  rw [Ne, maskBytes_eq_iff (hbytes.trans hmask.symm) hmask.symm]
  constructor
  · rintro ⟨i, byte, m, constant, hbyte, hm, hconstant, hne⟩ hsame
    obtain ⟨hi, -⟩ := List.getElem?_eq_some_iff.mp hconstant
    rw [← Data.getElem?_bytes regs.data sreg hi] at hbyte
    exact hne (hsame i byte m constant hbyte hm hconstant)
  · intro hsame
    by_contra hnone
    apply hsame
    intro i byte m constant hbyte hm hconstant
    by_contra hne
    obtain ⟨hi, -⟩ := List.getElem?_eq_some_iff.mp hconstant
    rw [Data.getElem?_bytes regs.data sreg hi] at hbyte
    exact hnone ⟨i, byte, m, constant, hbyte, hm, hconstant, hne⟩

/-! ### The short cut and the general comparison -/

namespace Expr

variable {sreg : UInt8} {mask data : Bytes} {e : Expr} {c : Compare}

theorem run?_ofCompare (he : ofCompare sreg .eq data = .ok e)
    (hc : Compare.build sreg .eq data = .ok c) (regs : Registers) (packet : Packet) :
    e.run? regs packet = c.run? regs := by
  obtain ⟨hop, hreg, hdata⟩ := Compare.of_build hc
  rw [run?_eq_some_eval, eval_ofCompare he, Compare.run?_eq, hop, hreg, hdata]

theorem run?_ofMasked (h : ofMasked sreg mask data = .ok e) (regs : Registers) (packet : Packet) :
    (regs.DiffersUnder sreg mask data →
      e.run? regs packet = some (regs.setVerdict .mismatch)) ∧
    (¬regs.DiffersUnder sreg mask data → e.run? regs packet = some regs) := by
  obtain ⟨-, hsize, hmask, hreg⟩ := ofMasked_ok_iff.mp ⟨e, h⟩
  have hend : start sreg + data.length ≤ byteCount := by
    unfold start byteCount Word.size
    omega
  rw [run?_eq_some_eval, eval_ofMasked h, Registers.differsUnder_iff hend hmask]
  constructor
  · intro hne
    rw [if_neg hne]
  · intro heq
    rw [if_pos (not_not.mp heq)]

/-- A test for equality is built, or refused, as if there were no short cut, and whichever kind of
comparison comes out leaves the same registers, whatever stands behind the bytes compared. A
comparison under a mask can be built for one to four bytes of a register that exists, with a mask as
long; it is a mismatch if some byte differs in a bit of the mask, and changes nothing otherwise. -/
theorem compare_faithful (sreg : UInt8) (mask data : Bytes) :
    (∀ fault, ofCompare sreg .eq data = .error fault ↔
      Compare.build sreg .eq data = .error fault) ∧
    ((∃ e, ofCompare sreg .eq data = .ok e) ↔ ∃ c, Compare.build sreg .eq data = .ok c) ∧
    (∀ e c, ofCompare sreg .eq data = .ok e → Compare.build sreg .eq data = .ok c →
      ∀ regs packet, ∃ after, e.run? regs packet = some after ∧ c.run? regs = some after) ∧
    ((∃ e, ofMasked sreg mask data = .ok e) ↔
      1 ≤ data.length ∧ data.length ≤ 4 ∧ mask.length = data.length ∧ sreg.toNat ≤ 15) ∧
    ∀ e, ofMasked sreg mask data = .ok e → ∀ regs packet,
      ∃ after, e.run? regs packet = some after ∧
        (regs.DiffersUnder sreg mask data → after = regs.setVerdict .mismatch) ∧
        (¬regs.DiffersUnder sreg mask data → after = regs) := by
  have houtcome := outcome_ofCompare sreg data
  refine ⟨?_, ?_, ?_, ofMasked_ok_iff, ?_⟩
  · intro fault
    rw [← outcome_eq_error_iff, houtcome, outcome_eq_error_iff]
  · rw [← outcome_eq_ok_iff, houtcome, outcome_eq_ok_iff]
  · intro e c he hc regs packet
    have hrun := run?_eq_some_eval e regs packet
    exact ⟨e.eval regs packet, hrun, (run?_ofCompare he hc regs packet).symm.trans hrun⟩
  · intro e he regs packet
    have hrun := run?_eq_some_eval e regs packet
    obtain ⟨hdiffers, hsame⟩ := run?_ofMasked he regs packet
    rw [hrun] at hdiffers hsame
    exact ⟨e.eval regs packet, hrun, fun h => Option.some.inj (hdiffers h),
      fun h => Option.some.inj (hsame h)⟩

/-- Three bytes of the last register, with something behind them and a mask that leaves out where
they differ. -/
theorem compare_faithful_last_register :
    let data : Bytes := [0x45, 0x4F, 0x99]
    let regs : Registers := ⟨.proceed, .replicate _ 0x45⟩
    ∃ e c m after, ofCompare 15 .eq data = .ok e ∧ Compare.build 15 .eq data = .ok c ∧
      ofMasked 15 [0xFF, 0xF0, 0] data = .ok m ∧ e.run? regs default = some after ∧
      c.run? regs = some after ∧ m.run? regs default = some regs := by
  intro data regs
  obtain ⟨-, hshort, hsame, hbuilt, hmasked⟩ := compare_faithful 15 [0xFF, 0xF0, 0] data
  obtain ⟨e, he⟩ : ∃ e, ofCompare 15 .eq data = .ok e := ⟨_, rfl⟩
  obtain ⟨c, hc⟩ := hshort.mp ⟨e, he⟩
  obtain ⟨m, hm⟩ := hbuilt.mpr (by decide)
  obtain ⟨after, hrun, hgeneral⟩ := hsame e c he hc regs default
  obtain ⟨kept, hkept, -, hkeep⟩ := hmasked m hm regs default
  have hnone : ¬regs.DiffersUnder 15 [0xFF, 0xF0, 0] data := by
    have hend : start 15 + data.length ≤ byteCount := by decide
    have hmask : [0xFF, 0xF0, 0].length = data.length := rfl
    rw [Registers.differsUnder_iff hend hmask]
    decide
  rw [hkeep hnone] at hkept
  exact ⟨e, c, m, after, he, hc, hm, hrun, hgeneral, hkept⟩

end Expr

/-! ### Numbers as bytes -/

/-- The last `len` digits of a number to the base 256, the last one counting least. -/
def toBigEndian : Nat → Nat → Bytes
  | 0, _ => []
  | len + 1, n => toBigEndian len (n / 256) ++ [UInt8.ofNat n]

example : toBigEndian 2 443 = [0x01, 0xBB] := by decide

theorem bigEndian_concat (front : Bytes) (byte : UInt8) :
    bigEndian (front ++ [byte]) = bigEndian front * 256 + byte.toNat := by
  simp [bigEndian]

/-- Every run of bytes is the encoding of a number. -/
theorem toBigEndian_bigEndian (bytes : Bytes) :
    toBigEndian bytes.length (bigEndian bytes) = bytes := by
  -- from the right, since the encoding ends with the lowest digit
  induction bytes using List.reverseRecOn with
  | nil => rfl
  | append_singleton front byte ih =>
    have hbyte : byte.toNat < 256 := byte.toNat_lt
    have hdiv : (bigEndian front * 256 + byte.toNat) / 256 = bigEndian front := by omega
    have hlast : UInt8.ofNat (bigEndian front * 256 + byte.toNat) = byte := by
      apply UInt8.toNat_inj.mp
      rw [UInt8.toNat_ofNat']
      omega
    rw [List.length_append, List.length_singleton, bigEndian_concat, toBigEndian, hdiv, hlast, ih]

/-- No other number with as many digits has the same encoding. -/
theorem bigEndian_toBigEndian {len n : Nat} (h : n < 256 ^ len) :
    bigEndian (toBigEndian len n) = n := by
  induction len generalizing n with
  | zero => exact (Nat.lt_one_iff.mp h).symm
  | succ len ih =>
    have hfront : n / 256 < 256 ^ len := by
      rw [Nat.pow_succ] at h
      exact Nat.div_lt_of_lt_mul (Nat.mul_comm _ 256 ▸ h)
    rw [toBigEndian, bigEndian_concat, ih hfront, UInt8.toNat_ofNat']
    omega

/-- The registers and the constant are the encodings of two numbers with as many digits, and the
comparison asks whether the operator holds between these. It changes nothing but the verdict, and
this only if the operator does not hold. -/
theorem Compare.numeric {sreg : UInt8} {op : CompareOp} {data : Bytes} {c : Compare}
    (h : build sreg op data = .ok c) (regs : Registers) :
    ∃ a b after, a < 256 ^ data.length ∧ b < 256 ^ data.length ∧
      Data.bytes regs.data sreg data.length = toBigEndian data.length a ∧
      data = toBigEndian data.length b ∧ c.run? regs = some after ∧ after.data = regs.data ∧
      after.verdict = if op.Relates a b then regs.verdict else .mismatch := by
  obtain ⟨rfl, rfl, rfl⟩ := of_build h
  have hlength := Registers.length_bytes c.operand.fits.end_le regs.data
  have hlt := bigEndian_lt (Data.bytes regs.data c.operand.reg c.operand.data.length)
  have hencoded := toBigEndian_bigEndian (Data.bytes regs.data c.operand.reg c.operand.data.length)
  rw [hlength] at hlt hencoded
  refine ⟨_, _, _, hlt, bigEndian_lt c.operand.data, hencoded.symm,
    (toBigEndian_bigEndian _).symm, c.run?_eq regs, ?_, ?_⟩
  · split <;> rfl
  · split <;> rfl

/-- Five bytes of zeros are not greater than a number that needs all five. -/
theorem Compare.numeric_two_registers :
    ∃ c after, Compare.build 3 .gt [0x01, 0, 0, 0, 0] = .ok c ∧
      c.run? Registers.initial = some after ∧ after.verdict = .mismatch := by
  obtain ⟨a, b, after, ha, hb, hregs, hdata, hrun, -, hverdict⟩ :=
    @Compare.numeric 3 .gt [0x01, 0, 0, 0, 0] _ rfl .initial
  have hleft : a = 0 := by
    rw [← bigEndian_toBigEndian ha, ← hregs]
    decide
  have hright : b = 256 ^ 4 := by
    rw [← bigEndian_toBigEndian hb, ← hdata]
    decide
  rw [hleft, hright, if_neg (by decide)] at hverdict
  exact ⟨_, after, rfl, hrun, hverdict⟩

end RuleChain
