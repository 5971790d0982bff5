/-! # Chain statistics

  A base chain counts the packets and bytes that its policy decided. Each worker counts in a
  shard of its own, and a reader adds the shards up. All counters wrap at 64 bits.
-/

namespace RuleChain

/-- Packets and bytes counted so far. -/
structure Counters where
  packets : UInt64
  bytes : UInt64
deriving DecidableEq, Repr

namespace Counters

def zero : Counters := ⟨0, 0⟩

instance : Inhabited Counters := ⟨zero⟩

def add (a b : Counters) : Counters := ⟨a.packets + b.packets, a.bytes + b.bytes⟩

/-- Counts one packet of the given length. -/
def count (c : Counters) (length : UInt64) : Counters := ⟨c.packets + 1, c.bytes + length⟩

end Counters

/-- The counters of a base chain, one pair for each shard. -/
structure ChainStats where
  shards : List Counters
  shards_pos : 0 < shards.length
deriving DecidableEq

namespace ChainStats

/-- Zeroed counters in the given number of shards, but at least one. -/
def ofShardCount (shards : Nat) : ChainStats :=
  ⟨List.replicate (max shards 1) .zero, by rw [List.length_replicate]; omega⟩

instance : Inhabited ChainStats := ⟨ofShardCount 1⟩

/-- Counts a packet in the shard of a worker; workers share shards if there are more of them. -/
def record (stats : ChainStats) (worker : Nat) (length : UInt64) : ChainStats :=
  ⟨stats.shards.modify (worker % stats.shards.length) (·.count length), by
    rw [List.length_modify]; exact stats.shards_pos⟩

/-- The sum over all shards. -/
def total (stats : ChainStats) : Counters := stats.shards.foldl Counters.add .zero

end ChainStats

end RuleChain
