/-! # Verdicts

  What a packet's traversal of the chains can say about the packet.

  - A `Disposition` is a final answer: the packet is accepted, dropped, queued or stolen.
  - A `Verdict` is the content of the verdict register: either a final disposition or one of
    the control signals that the traversal itself consumes.
  - A `Policy` is the disposition that a base chain falls back on.

  The module also holds the names by which chains and namespaces are known.
-/

namespace RuleChain

/-! ### Identifiers -/

/-- A chain of a table, numbered in the order of creation. -/
structure ChainId where
  index : Nat
deriving DecidableEq, Repr, Inhabited

/-- Chain ids are written with a leading `#`. -/
def ChainId.text (id : ChainId) : String := "#" ++ toString id.index

/-- The network namespace that a packet or a table belongs to. -/
structure Namespace where
  id : UInt32
deriving DecidableEq, Repr, Inhabited

namespace Namespace

/-- The namespace of packets that were given none. -/
def initial : Namespace := ⟨0⟩

/-- Namespaces are written with a leading `ns`. -/
def text (ns : Namespace) : String := "ns" ++ toString ns.id.toNat

end Namespace

/-! ### Dispositions -/

/-- What finally happens to a packet. -/
inductive Disposition where
  /-- The packet passes. -/
  | accept
  /-- The packet is discarded. -/
  | drop
  /-- The packet is handed to the userspace queue of this number. -/
  | queue (number : UInt16)
  /-- The packet was consumed on the way. -/
  | stolen
deriving DecidableEq, Repr, Inhabited

namespace Disposition

/-- The word for a disposition, without the queue number. -/
def word : Disposition → String
  | .accept => "accept"
  | .drop => "drop"
  | .queue _ => "queue"
  | .stolen => "stolen"

/-- The disposition as shown to a reader: the word, and the number of a queue. -/
def text : Disposition → String
  | .queue number => "queue " ++ toString number.toNat
  | d => d.word

end Disposition

/-! ### Policies -/

/-- The fallback of a base chain. -/
inductive Policy where
  | accept
  | drop
deriving DecidableEq, Repr, Inhabited

namespace Policy

def word : Policy → String
  | .accept => "accept"
  | .drop => "drop"

def disposition : Policy → Disposition
  | .accept => .accept
  | .drop => .drop

/-- Reads a policy in any mixture of ASCII cases; what is refused is shown in lower case. -/
def ofText (text : String) : Except String Policy :=
  match text.map Char.toLower with
  | "accept" => .ok .accept
  | "drop" => .ok .drop
  | other => .error s!"unknown policy '{other}', expected 'accept' or 'drop'"

end Policy

/-! ### Verdicts -/

/-- The content of the verdict register. -/
inductive Verdict where
  /-- Go on with the next expression, then with the next rule. -/
  | proceed
  /-- The rule does not match: go on with the next rule. -/
  | mismatch
  /-- Call a chain and come back to the rule after this one. -/
  | jump (target : ChainId)
  /-- Continue in a chain without coming back. -/
  | goto (target : ChainId)
  /-- Leave the chain early. -/
  | leave
  /-- End the traversal. -/
  | final (disposition : Disposition)
deriving DecidableEq, Repr, Inhabited

namespace Verdict

def disposition? : Verdict → Option Disposition
  | .final d => some d
  | _ => none

def isFinal (v : Verdict) : Bool := v.disposition?.isSome

/-- The short word for a verdict, without its argument. -/
def word : Verdict → String
  | .proceed => "continue"
  | .mismatch => "break"
  | .jump _ => "jump"
  | .goto _ => "goto"
  | .leave => "return"
  | .final d => d.word

/-- The number that a verdict carries: a chain to visit or a queue. -/
def argument? : Verdict → Option Nat
  | .jump target => some target.index
  | .goto target => some target.index
  | .final (.queue number) => some number.toNat
  | _ => none

/-- The form of a verdict in log fields and in trace listings. -/
def logText : Verdict → String
  | .proceed => "Continue"
  | .mismatch => "Break"
  | .jump target => "Jump(ChainId(" ++ toString target.index ++ "))"
  | .goto target => "Goto(ChainId(" ++ toString target.index ++ "))"
  | .leave => "Return"
  | .final .accept => "Accept"
  | .final .drop => "Drop"
  | .final (.queue number) => "Queue(" ++ toString number.toNat ++ ")"
  | .final .stolen => "Stolen"

end Verdict

/-- How a rule refers to another chain. -/
inductive JumpKind where
  /-- A call that comes back. -/
  | jump
  /-- A transfer that does not come back. -/
  | goto
deriving DecidableEq, Repr, Inhabited

namespace JumpKind

def logText : JumpKind → String
  | .jump => "Jump"
  | .goto => "Goto"

/-- Whether taking the edge saves a frame to come back to. -/
def depth : JumpKind → Nat
  | .jump => 1
  | .goto => 0

end JumpKind

/-- The chain that a verdict leads to, and how. -/
def Verdict.target? : Verdict → Option (ChainId × JumpKind)
  | .jump target => some (target, .jump)
  | .goto target => some (target, .goto)
  | _ => none

end RuleChain
