import RuleChain.Hex
import RuleChain.Registers

/-! # Faults of expressions

  Why an expression cannot be built. Every fault is found before a rule is made of the
  expression, so that evaluation never meets one.
-/

namespace RuleChain

/-- The kinds of expression, as complaints about them are headed. -/
inductive ExprKind where
  | compare
  | payload
  | immediate
  | verdict
deriving DecidableEq, Repr, Inhabited

def ExprKind.word : ExprKind → String
  | .compare => "cmp"
  | .payload => "payload"
  | .immediate => "immediate"
  | .verdict => "verdict"

/-- What is wrong with the parts of an expression. -/
inductive ExprFault where
  /-- The registers named do not hold that many bytes. -/
  | span (error : SpanError)
  | compareTooLong (len : Nat)
  | payloadTooLong (len : Nat)
  | immediateTooLong (len : Nat)
  /-- A comparison of one register was given no byte, or more than a register holds. -/
  | wordLength (len : Nat)
  | maskLength (mask data : Nat)
  | maskWithoutEquality
  | missingTarget
  | badHex (text : String) (error : Hex.Error)
deriving DecidableEq, Repr

/-- The longest run of bytes that an expression compares, loads or stores. -/
def maxOperand : Nat := 16

def ExprFault.message : ExprFault → String
  | .span error => error.message
  | .compareTooLong len => s!"data length {len} exceeds {maxOperand} bytes"
  | .payloadTooLong len => s!"length {len} exceeds {maxOperand} bytes"
  | .immediateTooLong len => s!"data length {len} exceeds {maxOperand}"
  | .wordLength len => s!"fast compare needs 1..={Word.size} bytes, got {len}"
  | .maskLength mask data => s!"mask length {mask} does not match data length {data}"
  | .maskWithoutEquality => "mask is only supported with op = \"eq\""
  | .missingTarget => "jump/goto requires a target chain"
  | .badHex text error => s!"invalid hex '{text}': " ++ error.message

/-- The test of a short run by its numbers. -/
theorem checkSpan?_ofNat (overflow : Overflow) (reg : UInt8) {len : Nat}
    (short : len ≤ maxOperand) :
    Registers.checkSpan? overflow reg (UInt64.ofNat len) = some (
      if len = 0 then .error .empty
      else if Registers.count ≤ reg.toNat then .error (.noSuchRegister reg)
      else if Registers.byteCount < Registers.start reg + roundUp len then
        .error (.overrun reg (UInt64.ofNat len))
      else .ok ()) := by
  have hlen : (UInt64.ofNat len).toNat = len :=
    UInt64.toNat_ofNat_of_lt' (Nat.lt_of_le_of_lt short (by decide))
  have hend : Registers.start reg + roundUp (UInt64.ofNat len).toNat < UInt64.size := by
    rw [hlen]
    exact Registers.start_add_roundUp_lt short
  rw [Registers.checkSpan?_of_lt hend, hlen]

/-- The bounds test as a step in building an expression. The run is so short that the test has an
answer, and the same one however overflows are treated. -/
def checkOperand (reg : UInt8) (len : Nat) (short : len ≤ maxOperand) : Except ExprFault Unit :=
  let answer := (Registers.checkSpan? .traps reg (UInt64.ofNat len)).get <| by
    rw [checkSpan?_ofNat _ _ short, Option.isSome_some]
  answer.mapError .span

/-- Building an expression does not depend on what becomes of overflows. -/
theorem checkSpan?_eq_checkOperand (overflow : Overflow) (reg : UInt8) {len : Nat}
    (short : len ≤ maxOperand) :
    (Registers.checkSpan? overflow reg (UInt64.ofNat len)).map (·.mapError .span) =
      some (checkOperand reg len short) := by
  simp only [checkOperand, checkSpan?_ofNat _ _ short, Option.map_some, Option.get_some]

theorem checkOperand_eq (reg : UInt8) {len : Nat} (short : len ≤ maxOperand) :
    checkOperand reg len short =
      if len = 0 then .error (.span .empty)
      else if Registers.count ≤ reg.toNat then .error (.span (.noSuchRegister reg))
      else if Registers.byteCount < Registers.start reg + roundUp len then
        .error (.span (.overrun reg (UInt64.ofNat len)))
      else .ok () := by
  simp only [checkOperand, checkSpan?_ofNat _ _ short, Option.get_some]
  repeat' split
  all_goals rfl

/-- For bytes that are not too many the bounds test asks whether they fit. -/
theorem checkOperand_eq_ok_iff {reg : UInt8} {len : Nat} (short : len ≤ maxOperand) :
    checkOperand reg len short = .ok () ↔ Registers.Fits reg len := by
  rw [checkOperand_eq]
  split
  · next h => exact iff_of_false nofun fun hfits => Nat.ne_of_gt hfits.1 h
  split
  · next h => exact iff_of_false nofun fun hfits => Nat.not_lt.mpr h hfits.lt_count
  split
  · next h => exact iff_of_false nofun fun hfits => Nat.not_lt.mpr hfits.2 h
  · next hne _ h => exact iff_of_true rfl ⟨Nat.pos_of_ne_zero hne, Nat.not_lt.mp h⟩

theorem fits_of_checkOperand {reg : UInt8} {len : Nat} (short : len ≤ maxOperand)
    (h : checkOperand reg len short = .ok ()) : Registers.Fits reg len :=
  (checkOperand_eq_ok_iff short).mp h

end RuleChain
