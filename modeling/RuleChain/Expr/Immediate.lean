import RuleChain.Expr.Operand

/-! # Immediate values

  An immediate writes a constant: a verdict into the verdict register, or bytes into the data
  registers.
-/

namespace RuleChain

/-- A value that is written without looking at the packet. -/
inductive Immediate where
  | verdict (verdict : Verdict)
  | data (operand : Operand)
deriving DecidableEq

namespace Immediate

def ofBytes (dreg : UInt8) (data : Bytes) : Except ExprFault Immediate :=
  (Operand.build .immediateTooLong dreg data).map .data

/-- The chain that the value leads to, and how. -/
def target? : Immediate → Option (ChainId × JumpKind)
  | .verdict v => v.target?
  | .data _ => none

def run? : Immediate → Registers → Option Registers
  | .verdict v, regs => some (regs.setVerdict v)
  | .data operand, regs => regs.store? operand.reg operand.data

theorem isSome_run? (i : Immediate) (regs : Registers) : (i.run? regs).isSome := by
  cases i with
  | verdict v => rfl
  | data operand => exact Registers.isSome_store? operand.fits

/-- The form of an immediate in listings for developers. -/
def logText : Immediate → String
  | .verdict v => "Verdict(" ++ v.logText ++ ")"
  | .data operand =>
    "Data(ImmediateData \x7b dreg: " ++ toString operand.reg.toNat ++ ", data: ["
      ++ ", ".intercalate (operand.data.map fun b => toString b.toNat) ++ "] \x7d)"

end Immediate

end RuleChain
