import RuleChain.Verdict
import RuleChain.Word

/-! # Register file

  One traversal of a packet owns a verdict register and sixteen data registers of four bytes.
  The data registers are one run of 64 bytes, so that a value longer than a register occupies
  consecutive ones.

  - Reading and writing answer `none` when the bytes touched do not lie inside the 64 bytes.
  - `checkSpan?` is the test that expressions make before they are built: what passes it may be
    read and stored without looking at the bounds again. Its arithmetic is unchecked, and what
    becomes of an overflow is a parameter.
-/

namespace RuleChain

/-- The number of data registers. -/
def Registers.count : Nat := 16

/-- The number of bytes in all data registers. -/
def Registers.byteCount : Nat := 64

/-- A register file. -/
structure Registers where
  /-- What the expressions evaluated so far say about the packet. -/
  verdict : Verdict
  /-- The data registers, one after the other. -/
  data : Vector UInt8 Registers.byteCount
deriving DecidableEq

namespace Registers

/-- A fresh register file: go on, and all data zero. -/
def initial : Registers := ⟨.proceed, Vector.replicate byteCount 0⟩

instance : Inhabited Registers := ⟨initial⟩

/-- The position of a register's first byte. -/
def start (reg : UInt8) : Nat := reg.toNat * Word.size

theorem start_eq (reg : UInt8) : start reg = 4 * reg.toNat := Nat.mul_comm _ _

/-- Puts the verdict back to its initial value and keeps the data. -/
def reset (regs : Registers) : Registers := { regs with verdict := .proceed }

def setVerdict (regs : Registers) (verdict : Verdict) : Registers := { regs with verdict }

/-! ### Access by position -/

/-- `len` bytes from `pos` on, as far as there are any. -/
def slice (regs : Registers) (pos len : Nat) : Bytes := (regs.data.toList.drop pos).take len

/-- Replaces the bytes from `pos` on by `bytes`, as far as they fit. -/
def overwrite (regs : Registers) (pos : Nat) (bytes : Bytes) : Registers :=
  { regs with
    data := Vector.ofFn fun i =>
      if pos ≤ i.val then bytes.getD (i.val - pos) regs.data[i] else regs.data[i] }

/-! ### Access by register -/

/-- The bytes that a store of `src` writes: `src`, filled up with zeros to whole registers. -/
def padded (src : Bytes) : Bytes := src ++ List.replicate (roundUp src.length - src.length) 0

/-- Reads `len` bytes from the start of `reg`. -/
def bytes? (regs : Registers) (reg : UInt8) (len : Nat) : Option Bytes :=
  if start reg + len ≤ byteCount then some (regs.slice (start reg) len) else none

/-- Writes `src` from the start of `reg`; the rest of the last register touched becomes zero. -/
def store? (regs : Registers) (reg : UInt8) (src : Bytes) : Option Registers :=
  if start reg + roundUp src.length ≤ byteCount then
    some (regs.overwrite (start reg) (padded src))
  else none

/-- Reads one register as a number. -/
def word? (regs : Registers) (reg : UInt8) : Option UInt32 :=
  (regs.bytes? reg Word.size).map Word.ofBytes

/-- Writes one register as a number. -/
def setWord? (regs : Registers) (reg : UInt8) (word : UInt32) : Option Registers :=
  if start reg + Word.size ≤ byteCount then
    some (regs.overwrite (start reg) (Word.toBytes word))
  else none

end Registers

/-! ### The bounds test -/

/-- Why a run of bytes does not lie inside the data registers. -/
inductive SpanError where
  | empty
  | noSuchRegister (reg : UInt8)
  | overrun (reg : UInt8) (len : UInt64)
deriving DecidableEq, Repr

def SpanError.message : SpanError → String
  | .empty => "length must be greater than 0"
  | .noSuchRegister reg => s!"register {reg.toNat} out of range (max {Registers.count - 1})"
  | .overrun reg len =>
    s!"{len.toNat} bytes starting at register {reg.toNat} exceed the register file"

namespace Registers

/-- Where a run of `len` bytes from `reg` ends once it is rounded up to whole registers, in
machine words. -/
def spanEnd? (overflow : Overflow) (reg : UInt8) (len : UInt64) : Option UInt64 := do
  let first ← overflow.mul? reg.toUInt64 4
  let touched ← overflow.mul? (if len % 4 = 0 then len / 4 else len / 4 + 1) 4
  overflow.add? first touched

/-- The end of a run is a word exactly if it is one in numbers without bound. -/
theorem spanEnd?_eq (overflow : Overflow) (reg : UInt8) (len : UInt64) :
    spanEnd? overflow reg len = overflow.word? (start reg + roundUp len.toNat) := by
  have hmod : len % 4 = 0 ↔ len.toNat % 4 = 0 := by
    rw [← UInt64.toNat_inj, UInt64.toNat_mod]
    rfl
  have hfirst : overflow.mul? reg.toUInt64 4 = overflow.word? (start reg) := rfl
  have htouched : overflow.mul? (if len % 4 = 0 then len / 4 else len / 4 + 1) 4 =
      overflow.word? (roundUp len.toNat) := by
    have hlen : len.toNat < 2 ^ 64 := len.toNat_lt
    refine congrArg overflow.word? ?_
    unfold roundUp
    split
    · next h =>
      have := hmod.mp h
      simp
      omega
    · next h =>
      have := mt hmod.mpr h
      simp
      omega
  rw [← Overflow.word?_add]
  unfold spanEnd?
  rw [hfirst, htouched]
  rfl

/-- Accepts a run of `len` bytes from `reg` that ends inside the data registers. There is no
answer where computing the end stops the program. -/
def checkSpan? (overflow : Overflow) (reg : UInt8) (len : UInt64) :
    Option (Except SpanError Unit) :=
  if len = 0 then some (.error .empty)
  else if count ≤ reg.toNat then some (.error (.noSuchRegister reg))
  else (spanEnd? overflow reg len).map fun stop =>
    if stop > 64 then .error (.overrun reg len) else .ok ()

/-- The test without words: it depends on the end of the run only. -/
theorem checkSpan?_eq (overflow : Overflow) (reg : UInt8) (len : UInt64) :
    checkSpan? overflow reg len =
      if len.toNat = 0 then some (.error .empty)
      else if count ≤ reg.toNat then some (.error (.noSuchRegister reg))
      else (overflow.word? (start reg + roundUp len.toNat)).map fun stop =>
        if byteCount < stop.toNat then .error (.overrun reg len) else .ok () := by
  have hzero : len = 0 ↔ len.toNat = 0 := by
    rw [← UInt64.toNat_inj]
    rfl
  unfold checkSpan?
  rw [spanEnd?_eq]
  simp only [hzero, gt_iff_lt, UInt64.lt_iff_toNat_lt]
  rfl

/-- Where no word overflows the test always has an answer, whatever would become of one that
does. -/
theorem checkSpan?_of_lt {overflow : Overflow} {reg : UInt8} {len : UInt64}
    (h : start reg + roundUp len.toNat < UInt64.size) :
    checkSpan? overflow reg len = some (
      if len.toNat = 0 then .error .empty
      else if count ≤ reg.toNat then .error (.noSuchRegister reg)
      else if byteCount < start reg + roundUp len.toNat then .error (.overrun reg len)
      else .ok ()) := by
  rw [checkSpan?_eq, Overflow.word?_of_lt h, Option.map_some, UInt64.toNat_ofNat_of_lt' h]
  simp only [apply_ite some]

/-- The run of `len` bytes from `reg`, rounded up to whole registers, is not empty and lies
inside the data registers. -/
def Fits (reg : UInt8) (len : Nat) : Prop :=
  0 < len ∧ start reg + roundUp len ≤ byteCount

instance (reg : UInt8) (len : Nat) : Decidable (Fits reg len) :=
  inferInstanceAs (Decidable (_ ∧ _))

theorem Fits.lt_count {reg : UInt8} {len : Nat} (h : Fits reg len) : reg.toNat < count := by
  obtain ⟨hpos, hend⟩ := h
  unfold start roundUp byteCount Word.size at hend
  unfold count
  omega

/-- The runs that expressions use are short, and end at a word. -/
theorem start_add_roundUp_lt {reg : UInt8} {len : Nat} (short : len ≤ 16) :
    start reg + roundUp len < UInt64.size := by
  have hreg : reg.toNat < 256 := reg.toNat_lt
  unfold start roundUp Word.size UInt64.size
  omega

theorem le_roundUp (len : Nat) : len ≤ roundUp len := by
  unfold roundUp; omega

theorem size_le_roundUp {len : Nat} (h : 0 < len) : Word.size ≤ roundUp len := by
  unfold roundUp Word.size; omega

/-- A run that fits can be read. -/
theorem isSome_bytes? {regs : Registers} {reg : UInt8} {len : Nat} (h : Fits reg len) :
    (regs.bytes? reg len).isSome := by
  have := le_roundUp len
  simp only [bytes?, Fits] at *
  rw [if_pos (by omega)]
  rfl

/-- A run that fits can be stored to. -/
theorem isSome_store? {regs : Registers} {reg : UInt8} {src : Bytes} (h : Fits reg src.length) :
    (regs.store? reg src).isSome := by
  simp only [store?, if_pos h.2, Option.isSome_some]

/-- Where a run fits, its first register can be read. -/
theorem isSome_word? {regs : Registers} {reg : UInt8} {len : Nat} (h : Fits reg len) :
    (regs.word? reg).isSome := by
  have := size_le_roundUp h.1
  simp only [word?, bytes?, Fits] at *
  rw [if_pos (by omega)]
  rfl

/-- Where a run fits, its first register can be written. -/
theorem isSome_setWord? {regs : Registers} {reg : UInt8} {word : UInt32} {len : Nat}
    (h : Fits reg len) : (regs.setWord? reg word).isSome := by
  have := size_le_roundUp h.1
  simp only [setWord?, Fits] at *
  rw [if_pos (by omega)]
  rfl

end Registers

end RuleChain
