import Mathlib.Algebra.Order.Floor.Div
import RuleChain.Proofs.Bounds

/-! # The bounds test of the register file

  Whoever reads or stores a run of register bytes has asked `Registers.checkSpan?` before. The test
  is open to all, and takes any length that is a machine word; it rounds the length up and adds the
  start of the register in machine words, too, and does not check that arithmetic. The end of a run
  of almost 2 ^ 64 bytes is no machine word. Then the test stops the program, or takes the end for
  a small number, as the program was compiled.

  - `Registers.HasRoom` is what the test is there for, in numbers without bound, and
    `Registers.Overflows` is where it has no answer or a wrong one.
  - `Registers.Accessible` says what may be done with a run that has room.
  - `Registers.checkSpan_exact`: the test answers exactly for all lengths up to 2 ^ 64 - 64, and for
    no greater one. Bytes in memory are never so many, but a length need not be that of bytes.
-/

namespace RuleChain

namespace Registers

variable {reg : UInt8} {len : Nat}

/-! ### Runs, in numbers without bound -/

/-- Where the registers end that are touched by a run of `len` bytes from `reg` on. -/
def runEnd (reg : UInt8) (len : Nat) : Nat := 4 * reg.toNat + 4 * (len ⌈/⌉ 4)

/-- There is such a register, the run is not empty, and the registers that it touches are all
inside the 64 data bytes. -/
def HasRoom (reg : UInt8) (len : Nat) : Prop :=
  0 < len ∧ reg.toNat < 16 ∧ runEnd reg len ≤ 64

instance (reg : UInt8) (len : Nat) : Decidable (HasRoom reg len) :=
  inferInstanceAs (Decidable (_ ∧ _ ∧ _))

/-- There is such a register, and the end of the run is not a machine word any more. -/
def Overflows (reg : UInt8) (len : Nat) : Prop :=
  reg.toNat < 16 ∧ 2 ^ 64 ≤ runEnd reg len

instance (reg : UInt8) (len : Nat) : Decidable (Overflows reg len) :=
  inferInstanceAs (Decidable (_ ∧ _))

theorem runEnd_eq (reg : UInt8) (len : Nat) : runEnd reg len = start reg + roundUp len := by
  unfold runEnd roundUp
  rw [start_eq, Nat.ceilDiv_eq_add_pred_div]
  omega

theorem hasRoom_iff_fits : HasRoom reg len ↔ Fits reg len := by
  unfold HasRoom
  rw [runEnd_eq]
  constructor
  · intro h
    exact ⟨h.1, h.2.2⟩
  · intro h
    exact ⟨h.1, h.lt_count, h.2⟩

/-- The remainder of an end that is no machine word lies inside the data registers. -/
theorem runEnd_lt (hreg : reg.toNat < 16) (hlen : len < 2 ^ 64) : runEnd reg len < 2 ^ 64 + 64 := by
  rw [runEnd_eq, start_eq]
  unfold roundUp
  omega

/-- As lengths grow, the runs from the last register are the first ones to overflow. -/
theorem Overflows.last (h : Overflows reg len) : Overflows 15 len := by
  have hlast : (15 : UInt8).toNat = 15 := rfl
  obtain ⟨hreg, hend⟩ := h
  unfold runEnd at hend
  refine ⟨by decide, ?_⟩
  unfold runEnd
  rw [hlast]
  omega

theorem overflows_last_iff : Overflows 15 len ↔ 2 ^ 64 - 64 < len := by
  have hlast : (15 : UInt8).toNat = 15 := rfl
  unfold Overflows
  rw [runEnd_eq, start_eq, hlast]
  unfold roundUp
  omega

theorem Overflows.lt_length (h : Overflows reg len) : 2 ^ 64 - 64 < len :=
  overflows_last_iff.mp h.last

theorem Overflows.not_hasRoom (h : Overflows reg len) : ¬HasRoom reg len := by
  intro hroom
  have hle := Nat.le_trans h.2 hroom.2.2
  omega

/-! ### What the test answers -/

/-- Where the end of the run is a machine word, the test asks whether there is room. -/
theorem checkSpan?_of_not_overflows (overflow : Overflow) {len : UInt64}
    (h : ¬Overflows reg len.toNat) :
    ∃ answer, checkSpan? overflow reg len = some answer ∧
      (answer = .ok () ↔ HasRoom reg len.toNat) := by
  by_cases hreg : reg.toNat < 16
  · have hend : start reg + roundUp len.toNat < UInt64.size := by
      rw [← runEnd_eq]
      exact Nat.not_le.mp fun hle => h ⟨hreg, hle⟩
    refine ⟨_, checkSpan?_of_lt hend, ?_⟩
    unfold HasRoom
    rw [runEnd_eq]
    unfold count byteCount
    split_ifs <;> simp <;> omega
  · have hcount : count ≤ reg.toNat := Nat.not_lt.mp hreg
    refine ⟨if len.toNat = 0 then .error .empty else .error (.noSuchRegister reg), ?_, ?_⟩
    · rw [checkSpan?_eq, if_pos hcount, apply_ite some]
    · refine iff_of_false ?_ fun hroom => hreg hroom.2.1
      split <;> exact nofun

/-- Where it is none, there is no answer, or the run is let through. -/
theorem checkSpan?_of_overflows (overflow : Overflow) {len : UInt64} (h : Overflows reg len.toNat) :
    checkSpan? overflow reg len = if overflow = .traps then none else some (.ok ()) := by
  have hlt := runEnd_lt h.1 len.toNat_lt
  have hne : len.toNat ≠ 0 := fun hzero => Nat.not_lt_zero _ (hzero ▸ h.lt_length)
  have hreg : ¬count ≤ reg.toNat := Nat.not_le.mpr h.1
  rw [checkSpan?_eq, if_neg hne, if_neg hreg, ← runEnd_eq]
  cases overflow with
  | traps => rw [Overflow.word?_eq_none_iff.mpr ⟨rfl, h.2⟩, Option.map_none, if_pos rfl]
  | wraps =>
    have hstop : ¬byteCount < (UInt64.ofNat (runEnd reg len.toNat)).toNat := by
      rw [UInt64.toNat_ofNat']
      have := h.2
      unfold byteCount
      omega
    simp only [Overflow.word?, Option.map_some, if_neg hstop]
    rfl

theorem checkSpan?_eq_none_iff {overflow : Overflow} {len : UInt64} :
    checkSpan? overflow reg len = none ↔ overflow = .traps ∧ Overflows reg len.toNat := by
  by_cases h : Overflows reg len.toNat
  · rw [checkSpan?_of_overflows overflow h]
    simp [h]
  · obtain ⟨answer, hanswer, -⟩ := checkSpan?_of_not_overflows overflow h
    simp [hanswer, h]

theorem checkSpan?_eq_ok_iff {overflow : Overflow} {len : UInt64} :
    checkSpan? overflow reg len = some (.ok ()) ↔
      HasRoom reg len.toNat ∨ overflow = .wraps ∧ Overflows reg len.toNat := by
  by_cases h : Overflows reg len.toNat
  · rw [checkSpan?_of_overflows overflow h]
    cases overflow <;> simp [h, h.not_hasRoom]
  · obtain ⟨answer, hanswer, hok⟩ := checkSpan?_of_not_overflows overflow h
    simp [hanswer, h, hok]

/-- The test answers exactly for the lengths with which no run overflows, and for no others. -/
theorem checkSpan?_exact_iff (overflow : Overflow) (len : UInt64) :
    (∀ reg, ∃ answer, checkSpan? overflow reg len = some answer ∧
      (answer = .ok () ↔ HasRoom reg len.toNat)) ↔ len.toNat ≤ 2 ^ 64 - 64 := by
  constructor
  · intro hexact
    by_contra hlong
    have hlast : Overflows 15 len.toNat := overflows_last_iff.mpr (Nat.not_le.mp hlong)
    obtain ⟨answer, hanswer, hok⟩ := hexact 15
    rw [checkSpan?_of_overflows overflow hlast] at hanswer
    cases overflow with
    | traps => cases hanswer
    | wraps => exact hlast.not_hasRoom (hok.mp (Option.some.inj hanswer).symm)
  · intro hle reg
    exact checkSpan?_of_not_overflows overflow fun h => Nat.not_lt.mpr hle h.lt_length

/-! ### What may be done with a run -/

/-- The bytes of a run can be read, and are those at the positions from the start of the register
on. As many bytes can be stored, which changes no byte outside the registers that the run
touches. -/
structure Accessible (regs : Registers) (reg : UInt8) (len : Nat) : Prop where
  read : ∃ bytes, regs.bytes? reg len = some bytes ∧ bytes.length = len ∧
    ∀ k < len, bytes[k]? = regs.data[4 * reg.toNat + k]?
  store : ∀ src : Bytes, src.length = len → ∃ after, regs.store? reg src = some after ∧
    ∀ pos, after.data[pos]? ≠ regs.data[pos]? → 4 * reg.toNat ≤ pos ∧ pos < runEnd reg len

theorem HasRoom.accessible (h : HasRoom reg len) (regs : Registers) : Accessible regs reg len := by
  have hfits := hasRoom_iff_fits.mp h
  constructor
  · refine ⟨_, bytes?_eq hfits.end_le, length_bytes hfits.end_le regs.data, ?_⟩
    intro k hk
    rw [Data.getElem?_bytes regs.data reg hk, start_eq]
  · intro src hsrc
    rw [← hsrc] at hfits
    refine ⟨_, store?_eq hfits, ?_⟩
    intro pos hpos
    have hin := Expr.mem_of_store_ne hfits hpos
    rw [hsrc] at hin
    rw [runEnd_eq, ← start_eq]
    exact hin

/-- A run that overflows is longer than all data registers. -/
theorem Overflows.bytes?_eq_none (h : Overflows reg len) (regs : Registers) :
    regs.bytes? reg len = none := by
  have hlong := h.lt_length
  refine if_neg ?_
  unfold byteCount
  omega

theorem Overflows.store?_eq_none {src : Bytes} (h : Overflows reg src.length) (regs : Registers) :
    regs.store? reg src = none := by
  have hlong := h.lt_length
  have hround := le_roundUp src.length
  refine if_neg ?_
  unfold byteCount
  omega

/-- The bounds test has an answer unless the end of the run overflows and overflows stop the
program. It accepts a run if the data registers have room for it, or if its end overflows and the
program goes on. So however overflows are treated, its answers are there and exact for all registers
if the length is at most 2 ^ 64 - 64, and for no greater length. What has room can be read and stored
to inside the registers, and what overflows can be neither. -/
theorem checkSpan_exact (overflow : Overflow) (len : UInt64) :
    ((∀ reg, ∃ answer, checkSpan? overflow reg len = some answer ∧
      (answer = .ok () ↔ HasRoom reg len.toNat)) ↔ len.toNat ≤ 2 ^ 64 - 64) ∧
    ∀ reg,
      (checkSpan? overflow reg len = none ↔ overflow = .traps ∧ Overflows reg len.toNat) ∧
      (checkSpan? overflow reg len = some (.ok ()) ↔
        HasRoom reg len.toNat ∨ overflow = .wraps ∧ Overflows reg len.toNat) ∧
      ∀ regs : Registers,
        (HasRoom reg len.toNat → Accessible regs reg len.toNat) ∧
        (Overflows reg len.toNat → regs.bytes? reg len.toNat = none ∧
          ∀ src : Bytes, src.length = len.toNat → regs.store? reg src = none) := by
  refine ⟨checkSpan?_exact_iff overflow len, fun reg => ?_⟩
  refine ⟨checkSpan?_eq_none_iff, checkSpan?_eq_ok_iff, fun regs => ?_⟩
  refine ⟨fun hroom => hroom.accessible regs, fun h => ⟨h.bytes?_eq_none regs, ?_⟩⟩
  intro src hsrc
  rw [← hsrc] at h
  exact h.store?_eq_none regs

/-- Ten bytes reach to the end of the last register from the third last one, and not from the one
behind it. From the last register on, 2 ^ 64 - 63 bytes stop the program, or are accepted and cannot
be read. -/
theorem checkSpan_exact_ends :
    (∀ overflow, checkSpan? overflow 13 10 = some (.ok ()) ∧
      ∃ error, checkSpan? overflow 14 10 = some (.error error)) ∧
    (∀ regs, Accessible regs 13 10) ∧
    checkSpan? .traps 15 18446744073709551553 = none ∧
    checkSpan? .wraps 15 18446744073709551553 = some (.ok ()) ∧
    ∀ regs : Registers, regs.bytes? 15 18446744073709551553 = none := by
  have hroom : HasRoom 13 10 := by decide
  have hfull : ¬HasRoom 14 10 := by decide
  have hend : Overflows 15 18446744073709551553 := by decide
  refine ⟨fun overflow => ⟨?_, ?_⟩, fun regs => ?_, ?_, ?_, fun regs => ?_⟩
  · exact ((checkSpan_exact overflow 10).2 13).2.1.mpr (Or.inl hroom)
  · obtain ⟨answer, hanswer, hok⟩ := (checkSpan_exact overflow 10).1.mpr (by decide) 14
    cases answer with
    | ok => exact absurd (hok.mp rfl) hfull
    | error error => exact ⟨error, hanswer⟩
  · exact (((checkSpan_exact .traps 10).2 13).2.2 regs).1 hroom
  · exact ((checkSpan_exact .traps 18446744073709551553).2 15).1.mpr ⟨rfl, hend⟩
  · exact ((checkSpan_exact .wraps 18446744073709551553).2 15).2.1.mpr (Or.inr ⟨rfl, hend⟩)
  · exact ((((checkSpan_exact .wraps 18446744073709551553).2 15).2.2 regs).2 hend).1

/-- Rounded up, the greatest length is no machine word: from the first register on, where there is
room for 64 bytes, the test stops the program or accepts it, and refuses it under no treatment of
overflows. -/
theorem checkSpan_greatest :
    checkSpan? .traps 0 18446744073709551615 = none ∧
    checkSpan? .wraps 0 18446744073709551615 = some (.ok ()) ∧
    ¬HasRoom 0 18446744073709551615 ∧ initial.bytes? 0 18446744073709551615 = none := by
  decide

end Registers

end RuleChain
