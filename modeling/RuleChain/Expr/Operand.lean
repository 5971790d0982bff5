import RuleChain.Expr.Fault

/-! # Operands

  The bytes that an expression compares with or writes, together with the register that they
  start in.
-/

namespace RuleChain

/-- A run of bytes at a register. -/
structure Operand where
  reg : UInt8
  data : Bytes
  fits : Registers.Fits reg data.length
deriving DecidableEq

/-- Puts bytes at a register. What is said of too many bytes depends on what they are for. -/
def Operand.build (tooLong : Nat → ExprFault) (reg : UInt8) (data : Bytes) :
    Except ExprFault Operand :=
  if long : maxOperand < data.length then .error (tooLong data.length)
  else
    match h : checkOperand reg data.length (Nat.not_lt.mp long) with
    | .error fault => .error fault
    | .ok () => .ok ⟨reg, data, fits_of_checkOperand _ h⟩

end RuleChain
