import RuleChain.Table.ChainMap

/-! # Tables

  A table is a set of chains together with the generation gate: which generation is current, how
  many commits there were, and how many readers are pinned to each generation.
-/

namespace RuleChain

/-- A table of chains. -/
structure Table where
  name : String
  /-- The namespace whose packets the base chains of the table judge. -/
  ns : Namespace
  /-- The number of shards that a new base chain counts in. -/
  statsShards : Nat
  /-- The generation that new readers are pinned to. -/
  generation : Generation
  /-- The number of commits so far. -/
  sequence : Nat
  /-- The readers pinned to each generation. -/
  readers : PerGeneration Nat
  chains : ChainMap
  /-- The handle for the next rule. -/
  nextHandle : Nat
  /-- The id for the next chain. -/
  nextChain : Nat
deriving DecidableEq

namespace Table

/-- A table without chains. Rule handles start at one, chain ids at zero. -/
def create (name : String) (ns : Namespace) (statsShards : Nat) : Table where
  name
  ns
  statsShards := max statsShards 1
  generation := .zero
  sequence := 0
  readers := .both 0
  chains := .empty
  nextHandle := 1
  nextChain := 0

instance : Inhabited Table := ⟨create "" .initial 1⟩

/-- Changes one chain. -/
def modifyChain (t : Table) (id : ChainId) (f : Chain → Chain) : Table :=
  { t with chains := t.chains.modify id f }

/-- The number of rules visible in the current generation. -/
def activeRules (t : Table) : Nat :=
  (t.chains.toList.flatMap (·.visibleRules t.generation)).length

/-! ### Readers -/

/-- Pins a reader to the current generation. -/
def enter (t : Table) : Table :=
  { t with readers := t.readers.modify t.generation (· + 1) }

/-- Releases a reader pinned to `g`. -/
def leave (t : Table) (g : Generation) : Table :=
  { t with readers := t.readers.modify g (· - 1) }

/-- Makes the other generation current. -/
def flip (t : Table) : Table :=
  { t with generation := t.generation.other, sequence := t.sequence + 1 }

end Table

end RuleChain
