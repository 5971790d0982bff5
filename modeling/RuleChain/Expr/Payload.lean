import RuleChain.Expr.Fault
import RuleChain.Packet

/-! # Payload loads

  A payload load copies a window of the packet into the data registers. A window that cannot be
  read makes the rule a mismatch and changes no data.

  `WordPayload` is the short cut for windows of one, two or four bytes, which are written as
  one register.
-/

namespace RuleChain

/-- A load of up to sixteen packet bytes. -/
structure Payload where
  /-- The header that the offset counts from. -/
  base : Header
  offset : UInt32
  len : UInt8
  /-- The register that the bytes are written to from. -/
  dreg : UInt8
  fits : Registers.Fits dreg len.toNat
deriving DecidableEq

namespace Payload

def build (base : Header) (offset : UInt32) (len dreg : UInt8) : Except ExprFault Payload :=
  if long : maxOperand < len.toNat then .error (.payloadTooLong len.toNat)
  else
    match h : checkOperand dreg len.toNat (Nat.not_lt.mp long) with
    | .error fault => .error fault
    | .ok () => .ok ⟨base, offset, len, dreg, fits_of_checkOperand _ h⟩

/-- Whether the window fills one register, or a part of it that is written in one go. -/
def isWordSized (p : Payload) : Bool := p.len == 1 || p.len == 2 || p.len == 4

/-- The part of the packet to load. -/
def source? (p : Payload) (packet : Packet) : Option Bytes :=
  packet.window? p.base p.offset p.len

/-- Stores the window, or records a mismatch. -/
def run? (p : Payload) (regs : Registers) (packet : Packet) : Option Registers :=
  match p.source? packet with
  | some window => regs.store? p.dreg window
  | none => some (regs.setVerdict .mismatch)

theorem isSome_run? (p : Payload) (regs : Registers) (packet : Packet) :
    (p.run? regs packet).isSome := by
  unfold run?
  split
  · rename_i window h
    have := Packet.length_of_window? h
    exact Registers.isSome_store? (this ▸ p.fits)
  · rfl

end Payload

/-- A load that is written as one register. -/
structure WordPayload where
  payload : Payload
  wordSized : payload.isWordSized = true
deriving DecidableEq

namespace WordPayload

def ofPayload? (payload : Payload) : Option WordPayload :=
  if h : payload.isWordSized = true then some ⟨payload, h⟩ else none

/-- Writes the window as one word; without a window the general load decides. -/
def run? (p : WordPayload) (regs : Registers) (packet : Packet) : Option Registers :=
  match p.payload.source? packet with
  | some window =>
    if window.length ≤ Word.size then regs.setWord? p.payload.dreg (Word.ofBytes window)
    else p.payload.run? regs packet
  | none => p.payload.run? regs packet

theorem isSome_run? (p : WordPayload) (regs : Registers) (packet : Packet) :
    (p.run? regs packet).isSome := by
  unfold run?
  split
  · split
    · exact Registers.isSome_setWord? p.payload.fits
    · exact Payload.isSome_run? ..
  · exact Payload.isSome_run? ..

end WordPayload

end RuleChain
