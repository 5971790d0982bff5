import RuleChain.JumpStack
import RuleChain.Table.Transaction

/-! # Validation of a transaction

  A commit is accepted if the chains as the transaction leaves them form a sound graph: every
  jump and goto leads to a live chain that is not a base chain, no chain can be reached from
  itself, and no path from a base chain takes more jumps than the jump stack has places.

  The depth of a chain, the greatest number of jumps on a path from it, is found by a
  depth-first search that marks every chain it has entered and remembers every depth found.
-/

namespace RuleChain

/-! ### Depth-first search -/

/-- The jumps and gotos out of each chain. -/
abbrev Edges := ChainId → List (ChainId × JumpKind)

/-- How far the search has come with a chain. -/
inductive Mark where
  /-- The search is below this chain. -/
  | visiting
  /-- The chain has this depth. -/
  | done (depth : Nat)
deriving DecidableEq, Repr

/-- The chains that the search has entered, the latest mark first. -/
abbrev Marks := List (ChainId × Mark)

def Marks.get? (marks : Marks) (id : ChainId) : Option Mark :=
  (marks.find? (·.1 == id)).map (·.2)

/-- The depth of a chain and the marks after the search, or a chain that lies on a cycle.
`fuel` bounds the number of chains below each other that can still be entered; one more than
there are chains is never used up. -/
def Edges.depth (edges : Edges) : Nat → ChainId → Marks → Except ChainId (Nat × Marks)
  | fuel, id, marks =>
    match marks.get? id with
    | some (.done depth) => .ok (depth, marks)
    | some .visiting => .error id
    | none =>
      match fuel with
      | 0 => .error id
      | fuel + 1 => do
        let (deepest, marks) ← (edges id).foldlM
          (fun (deepest, marks) (target, kind) => do
            let (below, marks) ← edges.depth fuel target marks
            return (max deepest (below + kind.depth), marks))
          (0, (id, .visiting) :: marks)
        return (deepest, (id, .done deepest) :: marks)

namespace Transaction

/-- The jumps and gotos of the rules that a chain will have. -/
def targetsOf (tx : Transaction) (chain : Chain) : List (ChainId × JumpKind) :=
  (chain.visibleRules tx.next).flatMap Rule.targets

/-- The jumps and gotos out of each live chain. -/
def edges (tx : Transaction) : Edges := fun id =>
  match tx.liveChain? id with
  | some chain => tx.targetsOf chain
  | none => []

/-! ### The three conditions -/

/-- A target is live and not a base chain. -/
def checkTarget (tx : Transaction) (chain : Chain) (rule : Rule) (target : ChainId) :
    Except EngineError Unit :=
  match tx.liveChain? target with
  | none => .error (.danglingJump chain.name rule.handle target)
  | some dest =>
    if dest.isBase then .error (.jumpToBaseChain chain.name rule.handle dest.name) else .ok ()

/-- Every target of the chain is live and not a base chain. -/
def checkTargets (tx : Transaction) (chain : Chain) : Except EngineError Unit :=
  (chain.visibleRules tx.next).forM fun rule =>
    rule.targets.forM fun (target, _) => tx.checkTarget chain rule target

/-- The name of a chain, for a complaint. -/
def nameOf (tx : Transaction) (id : ChainId) : String :=
  ((tx.table.chains.get? id).map (·.name)).getD ""

/-- No cycle is reached from the chain, and a base chain is not too deep. -/
def checkDepth (tx : Transaction) (fuel : Nat) (marks : Marks) (chain : Chain) :
    Except EngineError Marks :=
  match tx.edges.depth fuel chain.id marks with
  | .error id => .error (.chainLoop (tx.nameOf id))
  | .ok (depth, marks) =>
    if chain.isBase ∧ JumpStack.capacity < depth then
      .error (.jumpDepthExceeded chain.name depth JumpStack.capacity)
    else .ok marks

/-- Accepts a transaction whose live chains form a sound graph. -/
def validate (tx : Transaction) : Except EngineError Unit := do
  tx.liveChains.forM tx.checkTargets
  let _ ← tx.liveChains.foldlM (tx.checkDepth (tx.liveChains.length + 1)) []
  return ()

end Transaction

end RuleChain
