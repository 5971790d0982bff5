/-! # Register words

  A data register holds four bytes. As a number the first byte counts least, so that a word
  and its bytes determine each other.

  Lengths and positions are machine words of 64 bits. What happens to a sum or a product that is
  none is settled when the program is compiled, so that arithmetic takes an `Overflow`.
-/

namespace RuleChain

/-- Packet and register contents. -/
abbrev Bytes := List UInt8

namespace Word

/-- The number of bytes in a register. -/
def size : Nat := 4

/-- The word of up to four bytes; missing bytes are zero and further bytes are not looked at. -/
def ofBytes (bytes : Bytes) : UInt32 :=
  (bytes.getD 0 0).toUInt32 ||| (bytes.getD 1 0).toUInt32 <<< 8
    ||| (bytes.getD 2 0).toUInt32 <<< 16 ||| (bytes.getD 3 0).toUInt32 <<< 24

/-- The four bytes of a word, least first. -/
def toBytes (word : UInt32) : Bytes :=
  [word.toUInt8, (word >>> 8).toUInt8, (word >>> 16).toUInt8, (word >>> 24).toUInt8]

@[simp] theorem length_toBytes (word : UInt32) : (toBytes word).length = size := rfl

end Word

/-- A length in bytes, rounded up to whole registers. -/
def roundUp (len : Nat) : Nat := (len + 3) / 4 * 4

/-! ### Machine words -/

/-- What becomes of a result that no machine word holds. -/
inductive Overflow where
  /-- The program stops. -/
  | traps
  /-- The program goes on with the remainder. -/
  | wraps
deriving DecidableEq, Repr

namespace Overflow

/-- The word for a result in numbers without bound, if the program goes on. -/
def word? (overflow : Overflow) (result : Nat) : Option UInt64 :=
  match overflow with
  | .traps => if result < UInt64.size then some (UInt64.ofNat result) else none
  | .wraps => some (UInt64.ofNat result)

def add? (overflow : Overflow) (a b : UInt64) : Option UInt64 :=
  overflow.word? (a.toNat + b.toNat)

def mul? (overflow : Overflow) (a b : UInt64) : Option UInt64 :=
  overflow.word? (a.toNat * b.toNat)

variable {overflow : Overflow} {a b : Nat}

theorem word?_of_lt (h : a < UInt64.size) : overflow.word? a = some (UInt64.ofNat a) := by
  cases overflow with
  | traps => exact if_pos h
  | wraps => rfl

/-- The program stops only where it is told to. -/
theorem word?_eq_none_iff :
    overflow.word? a = none ↔ overflow = .traps ∧ UInt64.size ≤ a := by
  cases overflow <;> simp [word?]

theorem word?_eq_some_iff {word : UInt64} :
    overflow.word? a = some word ↔
      (overflow = .traps → a < UInt64.size) ∧ UInt64.ofNat a = word := by
  cases overflow <;> simp [word?]

/-- Parts that are words only after an overflow do not add up to a word either, so that it is
enough to look at the sum. -/
theorem word?_add :
    ((overflow.word? a).bind fun x => (overflow.word? b).bind fun y => overflow.add? x y) =
      overflow.word? (a + b) := by
  cases overflow with
  | traps =>
    by_cases hparts : a < UInt64.size ∧ b < UInt64.size
    · obtain ⟨ha, hb⟩ := hparts
      rw [word?_of_lt ha, word?_of_lt hb]
      simp only [Option.bind_some, add?, UInt64.toNat_ofNat_of_lt' ha, UInt64.toNat_ofNat_of_lt' hb]
    · have hsum : Overflow.traps.word? (a + b) = none := word?_eq_none_iff.mpr ⟨rfl, by omega⟩
      rw [hsum, Option.bind_eq_none_iff]
      intro x hx
      have ha : a < UInt64.size := (word?_eq_some_iff.mp hx).1 rfl
      have hb : UInt64.size ≤ b := Nat.not_lt.mp fun hb => hparts ⟨ha, hb⟩
      rw [word?_eq_none_iff.mpr ⟨rfl, hb⟩, Option.bind_none]
  | wraps =>
    simp only [word?, add?, Option.bind_some]
    rw [UInt64.ofNat_add, UInt64.ofNat_toNat, UInt64.ofNat_toNat, ← UInt64.ofNat_add]

end Overflow

end RuleChain
