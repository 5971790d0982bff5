import RuleChain.Expr
import RuleChain.Generation
import RuleChain.Stats

/-! # Rules and chains

  A rule is a list of expressions, known by a handle and visible in some generations. A chain is
  an ordered list of rules. A base chain is one that packets enter; it has a policy for packets
  that no rule decided, and statistics of them. Every other chain is only reached by rules.
-/

namespace RuleChain

/-! ### Rules -/

/-- A rule of a chain. -/
structure Rule where
  /-- The number by which the rule is known in its table. -/
  handle : Nat
  exprs : List Expr
  mask : GenMask
deriving DecidableEq

namespace Rule

def isActive (rule : Rule) (g : Generation) : Bool := rule.mask.get g

def activate (rule : Rule) (g : Generation) : Rule := { rule with mask := rule.mask.set g true }

def deactivate (rule : Rule) (g : Generation) : Rule := { rule with mask := rule.mask.set g false }

/-- The chains that the rule may lead to, in the order of its expressions. -/
def targets (rule : Rule) : List (ChainId × JumpKind) := rule.exprs.filterMap Expr.target?

end Rule

/-! ### Chains -/

/-- What makes a chain a base chain. -/
structure BaseChain where
  policy : Policy
  ns : Namespace
  stats : ChainStats
deriving DecidableEq

/-- A chain of a table. -/
structure Chain where
  id : ChainId
  name : String
  /-- The linked rules, of all generations. -/
  rules : List Rule
  base : Option BaseChain
deriving DecidableEq

namespace Chain

def isBase (chain : Chain) : Bool := chain.base.isSome

/-- The rules that a packet meets in a generation. -/
def visibleRules (chain : Chain) (g : Generation) : List Rule :=
  chain.rules.filter (·.isActive g)

/-- The counters of a base chain. -/
def counters? (chain : Chain) : Option Counters := chain.base.map (·.stats.total)

def mapRules (chain : Chain) (f : List Rule → List Rule) : Chain :=
  { chain with rules := f chain.rules }

/-- Changes the rule with a handle. -/
def modifyRule (chain : Chain) (handle : Nat) (f : Rule → Rule) : Chain :=
  chain.mapRules (·.map fun rule => if rule.handle = handle then f rule else rule)

/-- Unlinks the rule with a handle. -/
def unlink (chain : Chain) (handle : Nat) : Chain :=
  chain.mapRules (·.filter (·.handle ≠ handle))

/-- Unlinks the rules that no generation shows. -/
def unlinkDead (chain : Chain) : Chain :=
  chain.mapRules (·.filter (!·.mask.isDead))

/-- Counts a packet that the policy decided. -/
def record (chain : Chain) (worker : Nat) (length : UInt64) : Chain :=
  { chain with base := chain.base.map fun b => { b with stats := b.stats.record worker length } }

end Chain

end RuleChain
