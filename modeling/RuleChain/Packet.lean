import RuleChain.Verdict
import RuleChain.Word

/-! # Packets

  A packet is a run of bytes with the positions of its network and transport headers. The
  traversal never interprets the bytes: payload expressions read windows of them, and a window
  that leaves the buffer, or whose position does not fit 64 bits, cannot be read.
-/

namespace RuleChain

/-- The header that a payload position is counted from. -/
inductive Header where
  | network
  | transport
deriving DecidableEq, Repr, Inhabited

namespace Header

def word : Header → String
  | .network => "network"
  | .transport => "transport"

/-- The capitalised name. -/
def title : Header → String
  | .network => "Network"
  | .transport => "Transport"

end Header

/-- A packet to be classified. -/
structure Packet where
  data : Bytes
  /-- Where the network header starts in the buffer. -/
  networkOffset : UInt64
  /-- Where the transport header starts in the buffer, if the packet has one. -/
  transportOffset : Option UInt64
  ns : Namespace
  /-- Whether the sender asked for this packet to be traced. -/
  traced : Bool
deriving DecidableEq, Repr

namespace Packet

/-- A packet whose network header starts the buffer and that has no transport header. -/
def ofBytes (data : Bytes) : Packet :=
  { data, networkOffset := 0, transportOffset := none, ns := .initial, traced := false }

instance : Inhabited Packet := ⟨ofBytes []⟩

/-- The shortest IPv4 header. -/
def minHeaderLength : Nat := 20

/-- The length of the IPv4 header that starts a buffer, if the buffer starts with a whole one. -/
def ipv4HeaderLength? : Bytes → Option Nat
  | [] => none
  | first :: rest =>
    let length := first.toNat % 16 * 4
    if first.toNat / 16 = 4 ∧ minHeaderLength ≤ length ∧ length ≤ rest.length + 1 then some length
    else none

/-- A packet that starts with its IPv4 header: the transport header follows it. A buffer that
does not start with a whole IPv4 header has no transport header. -/
def ipv4 (data : Bytes) : Packet :=
  { ofBytes data with transportOffset := (ipv4HeaderLength? data).map UInt64.ofNat }

/-- Where a header starts, if the packet has it. -/
def headerOffset? (packet : Packet) : Header → Option UInt64
  | .network => some packet.networkOffset
  | .transport => packet.transportOffset

/-- The sum of two machine words, unless it does not fit one. -/
def addOffset? (a b : UInt64) : Option UInt64 :=
  if a.toNat + b.toNat < UInt64.size then some (a + b) else none

/-- The `len` bytes that start `offset` bytes behind a header. -/
def window? (packet : Packet) (header : Header) (offset : UInt32) (len : UInt8) : Option Bytes := do
  let head ← packet.headerOffset? header
  let first ← addOffset? head offset.toUInt64
  let past ← addOffset? first len.toUInt64
  if past.toNat ≤ packet.data.length then
    some ((packet.data.drop first.toNat).take len.toNat)
  else none

theorem length_of_window? {packet : Packet} {header : Header} {offset : UInt32} {len : UInt8}
    {window : Bytes} (h : packet.window? header offset len = some window) :
    window.length = len.toNat := by
  simp only [window?, Option.bind_eq_bind, Option.bind_eq_some_iff] at h
  obtain ⟨head, -, first, -, past, hpast, h⟩ := h
  split at h
  · rename_i hle
    simp only [addOffset?] at hpast
    split at hpast
    · rename_i hlt
      cases hpast
      cases h
      simp only [UInt64.toNat_add, UInt8.toNat_toUInt64, UInt64.size] at hle hlt
      simp only [List.length_take, List.length_drop]
      omega
    · cases hpast
  · cases h

end Packet

end RuleChain
