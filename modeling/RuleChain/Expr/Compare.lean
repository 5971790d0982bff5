import RuleChain.Expr.Operand

/-! # Comparisons

  A comparison looks at register bytes and lets the rule go on or makes it a mismatch.

  - `Compare` holds bytes against a constant in the order of dictionaries.
  - `MaskedCompare` is the short cut for one register: a masked word must equal a constant.
-/

namespace RuleChain

/-! ### Operators -/

/-- A relation between the register bytes and the constant. -/
inductive CompareOp where
  | eq
  | ne
  | lt
  | le
  | gt
  | ge
deriving DecidableEq, Repr, Inhabited

namespace CompareOp

def word : CompareOp → String
  | .eq => "eq"
  | .ne => "neq"
  | .lt => "lt"
  | .le => "lte"
  | .gt => "gt"
  | .ge => "gte"

/-- The capitalised name. -/
def title : CompareOp → String
  | .eq => "Eq"
  | .ne => "Neq"
  | .lt => "Lt"
  | .le => "Lte"
  | .gt => "Gt"
  | .ge => "Gte"

/-- Whether the relation holds between two values that are in the given order. -/
def holds : CompareOp → Ordering → Bool
  | .eq, order => order == .eq
  | .ne, order => order != .eq
  | .lt, order => order == .lt
  | .le, order => order != .gt
  | .gt, order => order == .gt
  | .ge, order => order != .lt

end CompareOp

/-- The order of dictionaries: the first difference decides, and a beginning of a longer run
comes before it. -/
def bytesOrder : Bytes → Bytes → Ordering
  | [], [] => .eq
  | [], _ :: _ => .lt
  | _ :: _, [] => .gt
  | a :: as, b :: bs => if a < b then .lt else if b < a then .gt else bytesOrder as bs

/-! ### Comparison of bytes -/

/-- A comparison of up to sixteen register bytes with a constant. -/
structure Compare where
  op : CompareOp
  /-- The constant, and the register that the bytes start in. -/
  operand : Operand
deriving DecidableEq

namespace Compare

def build (sreg : UInt8) (op : CompareOp) (data : Bytes) : Except ExprFault Compare :=
  (Operand.build .compareTooLong sreg data).map (⟨op, ·⟩)

/-- Reads the registers and records a mismatch if the relation does not hold. -/
def run? (c : Compare) (regs : Registers) : Option Registers := do
  let bytes ← regs.bytes? c.operand.reg c.operand.data.length
  return if c.op.holds (bytesOrder bytes c.operand.data) then regs else regs.setVerdict .mismatch

theorem isSome_run? (c : Compare) (regs : Registers) : (c.run? regs).isSome := by
  obtain ⟨bytes, h⟩ : ∃ bytes, regs.bytes? c.operand.reg c.operand.data.length = some bytes :=
    Option.isSome_iff_exists.mp (Registers.isSome_bytes? c.operand.fits)
  simp [run?, h]

end Compare

/-! ### Comparison of one register -/

/-- A comparison of one register under a mask. -/
structure MaskedCompare where
  sreg : UInt8
  mask : UInt32
  /-- What the masked register must equal. -/
  data : UInt32
  fits : Registers.Fits sreg Word.size
deriving DecidableEq

namespace MaskedCompare

/-- Takes mask and constant as words. -/
def ofWords (sreg : UInt8) (mask data : UInt32) : Except ExprFault MaskedCompare :=
  match h : checkOperand sreg Word.size (by decide) with
  | .error fault => .error fault
  | .ok () => .ok ⟨sreg, mask, data, fits_of_checkOperand _ h⟩

/-- Takes mask and constant byte by byte; bits of the constant outside the mask do not count. -/
def ofBytes (sreg : UInt8) (mask data : Bytes) : Except ExprFault MaskedCompare :=
  if data.isEmpty ∨ Word.size < data.length then .error (.wordLength data.length)
  else if mask.length ≠ data.length then .error (.maskLength mask.length data.length)
  else ofWords sreg (Word.ofBytes mask) (Word.ofBytes data &&& Word.ofBytes mask)

/-- Compares as many bytes as the constant has. -/
def exact (sreg : UInt8) (data : Bytes) : Except ExprFault MaskedCompare :=
  ofBytes sreg (List.replicate data.length 0xFF) data

/-- Reads the register and records a mismatch if it differs under the mask. -/
def run? (c : MaskedCompare) (regs : Registers) : Option Registers := do
  let word ← regs.word? c.sreg
  return if word &&& c.mask = c.data then regs else regs.setVerdict .mismatch

theorem isSome_run? (c : MaskedCompare) (regs : Registers) : (c.run? regs).isSome := by
  obtain ⟨word, h⟩ : ∃ word, regs.word? c.sreg = some word :=
    Option.isSome_iff_exists.mp (Registers.isSome_word? c.fits)
  simp [run?, h]

end MaskedCompare

end RuleChain
