import RuleChain.Verdict

/-! # Trace events

  A traced packet leaves an event for every rule that went on or gave a verdict, for every chain
  that it left, and for the policy that decided it.
-/

namespace RuleChain

/-- What an event is about. -/
inductive TraceKind where
  /-- A rule went on or gave a verdict. -/
  | rule
  /-- A chain was left, at its end or by a rule. -/
  | leave
  /-- The policy of the base chain decided. -/
  | policy
deriving DecidableEq, Repr, Inhabited

def TraceKind.word : TraceKind → String
  | .rule => "rule"
  | .leave => "return"
  | .policy => "policy"

/-- A step of a traced packet. -/
structure TraceEvent where
  table : String
  chain : String
  chainId : ChainId
  /-- The handle of the rule; none at the end of a chain and for a policy. -/
  rule : Option Nat
  /-- The place of the rule among those visible in its chain, counted from one; none for a
  policy. -/
  number : Option Nat
  kind : TraceKind
  verdict : Verdict
deriving DecidableEq, Repr

/-- The line that shows an event. -/
def TraceEvent.text (event : TraceEvent) : String :=
  s!"TRACE: {event.table}:{event.chain}:{event.kind.word}:"
    ++ match event.number with
      | some number => toString number
      | none => "-"

end RuleChain
