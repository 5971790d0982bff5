import RuleChain.Error
import RuleChain.JumpStack
import RuleChain.Table.ChainMap
import RuleChain.Trace

/-! # Traversal

  A packet walks through the rules of a base chain that are visible in one generation.

  - A rule runs its expressions. A mismatch goes on with the next rule, as does a rule that
    gives no verdict; a final disposition ends the walk.
  - A jump saves the place behind the rule on the jump stack and starts the target chain from its
    first rule. A goto starts the target without saving a place.
  - A chain is left at its end, or earlier by a rule. The walk comes back to the place saved
    last; if there is none, the policy of the base chain decides.
  - The data registers live as long as the walk; the verdict register starts anew for each rule.

  The walk may visit a bounded number of rules. It recurses on what is left of this budget, since
  every round either visits a rule or ends.
-/

namespace RuleChain

/-- What stays the same during a walk. -/
structure Journey where
  table : String
  chains : ChainMap
  /-- The generation that the walk is pinned to. -/
  generation : Generation
  packet : Packet
  /-- The number of rules that may be visited. -/
  budget : Nat

/-- A place in a chain. -/
structure Frame where
  chain : Chain
  /-- The visible rules that come next. -/
  rest : List Rule
  /-- How many visible rules are behind. -/
  passed : Nat
deriving DecidableEq

/-- How a walk ended. -/
inductive Ending where
  /-- A rule decided. -/
  | byRule (disposition : Disposition)
  /-- The walk left the base chain, so that its policy decides. -/
  | byPolicy
deriving DecidableEq, Repr

/-- What a walk leaves behind. -/
structure Walk where
  events : List TraceEvent
  /-- The number of rules visited. -/
  visited : Nat
  result : Except EvalError Ending

namespace Walk

/-- A walk that does nothing more. -/
def ended (result : Except EvalError Ending) : Walk := ⟨[], 0, result⟩

/-- Puts events before those of a walk. -/
def after (events : List TraceEvent) (walk : Walk) : Walk :=
  { walk with events := events ++ walk.events }

/-- Puts the visit of one rule before a walk. -/
def visit (walk : Walk) : Walk := { walk with visited := walk.visited + 1 }

end Walk

namespace Journey

/-- The first rule of a chain. -/
def enter (j : Journey) (chain : Chain) : Frame := ⟨chain, chain.visibleRules j.generation, 0⟩

/-! ### Events -/

/-- The event of a rule, given the place behind it. -/
def ruleEvent (j : Journey) (behind : Frame) (rule : Rule) (kind : TraceKind) (verdict : Verdict) :
    TraceEvent :=
  ⟨j.table, behind.chain.name, behind.chain.id, some rule.handle, some behind.passed, kind, verdict⟩

/-- The event of the end of a chain, numbered as if it were one more rule. -/
def endEvent (j : Journey) (frame : Frame) : TraceEvent :=
  ⟨j.table, frame.chain.name, frame.chain.id, none, some (frame.passed + 1), .leave, .proceed⟩

/-- The event of a policy. -/
def policyEvent (j : Journey) (chain : Chain) (policy : Policy) : TraceEvent :=
  ⟨j.table, chain.name, chain.id, none, none, .policy, .final policy.disposition⟩

/-! ### One rule -/

/-- A rule that is about to be visited. -/
structure Stop where
  rule : Rule
  /-- The place behind the rule. -/
  behind : Frame
  /-- The places to come back to. -/
  stack : JumpStack Frame

/-- Leaves all chains that have no rule left, up to the next rule to visit. There is none if the
base chain is left as well. -/
def nextStop (j : Journey) (frame : Frame) (frames : List Frame) :
    List TraceEvent × Option Stop :=
  match frame.rest with
  | rule :: rest =>
    ([], some ⟨rule, { frame with rest, passed := frame.passed + 1 }, ⟨frames⟩⟩)
  | [] =>
    match frames with
    | [] => ([j.endEvent frame], none)
    | back :: frames =>
      let (events, stop) := j.nextStop back frames
      (j.endEvent frame :: events, stop)

/-- What follows the visit of a rule. -/
inductive Next where
  | go (place : Frame) (stack : JumpStack Frame)
  | stop (result : Except EvalError Ending)

/-- Follows the verdict of a rule. -/
def follow (j : Journey) (stop : Stop) (verdict : Verdict) : List TraceEvent × Next :=
  let event := j.ruleEvent stop.behind stop.rule
  let name := stop.behind.chain.name
  match verdict with
  | .mismatch => ([], .go stop.behind stop.stack)
  | .proceed => ([event .rule verdict], .go stop.behind stop.stack)
  | .final d => ([event .rule verdict], .stop (.ok (.byRule d)))
  | .jump target =>
    match j.chains.get? target with
    | none => ([], .stop (.error (.unknownChain name stop.rule.handle target)))
    | some chain =>
      match stop.stack.push? stop.behind with
      | none =>
        ([event .rule verdict],
          .stop (.error (.stackOverflow name stop.rule.handle stop.stack.size)))
      | some stack => ([event .rule verdict], .go (j.enter chain) stack)
  | .goto target =>
    match j.chains.get? target with
    | none => ([], .stop (.error (.unknownChain name stop.rule.handle target)))
    | some chain => ([event .rule verdict], .go (j.enter chain) stop.stack)
  | .leave =>
    match stop.stack.pop? with
    | none => ([event .leave verdict], .stop (.ok .byPolicy))
    | some (back, stack) => ([event .leave verdict], .go back stack)

/-! ### The walk -/

/-- How a walk gets at the registers and at the jump stack. The walk is the same whether or not
these accesses can fail. -/
structure Access (m : Type → Type) where
  /-- Evaluates an expression. -/
  eval : Expr → Registers → Packet → m Registers
  /-- Looks at the stack. -/
  look : JumpStack Frame → m Unit

/-- Expressions know their bounds, and the stack is looked at as it is. -/
def Access.direct : Access Id where
  eval := Expr.eval
  look _ := ()

section access

variable {m : Type → Type} [Monad m]

/-- Walks on from a place, with the registers as they are, as long as the budget lasts. -/
@[specialize]
def walkBy (access : Access m) (j : Journey) :
    Nat → Registers → Frame → JumpStack Frame → m Walk
  | left, regs, frame, stack =>
    match j.nextStop frame stack.frames with
    | (events, none) => pure ((Walk.ended (.ok .byPolicy)).after events)
    | (events, some stop) =>
      match left with
      | 0 =>
        let fault := .stepBudgetExhausted stop.behind.chain.name j.budget
        pure ((Walk.ended (.error fault)).after events)
      | left + 1 => do
        let regs ← Expr.evalAllBy access.eval stop.rule.exprs regs.reset j.packet
        match j.follow stop regs.verdict with
        | (more, .go frame stack) =>
          access.look stack
          let walk ← walkBy access j left regs frame stack
          return (walk.visit.after more).after events
        | (more, .stop result) => return ((Walk.ended result).visit.after more).after events

/-- The walk through a base chain from its first rule. -/
@[specialize]
def startBy (access : Access m) (j : Journey) (chain : Chain) : m Walk := do
  access.look .empty
  walkBy access j j.budget .initial (j.enter chain) .empty

end access

def walk (j : Journey) (left : Nat) (regs : Registers) (frame : Frame) (stack : JumpStack Frame) :
    Walk :=
  (walkBy .direct j left regs frame stack).run

def start (j : Journey) (chain : Chain) : Walk := j.walk j.budget .initial (j.enter chain) .empty

end Journey

end RuleChain
