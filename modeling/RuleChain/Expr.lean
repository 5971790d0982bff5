import RuleChain.Expr.Compare
import RuleChain.Expr.Immediate
import RuleChain.Expr.Payload

/-! # Expressions

  A rule is a list of expressions, evaluated from left to right on a register file. There are
  three things that an expression can do (compare, load, write a constant), and two of
  them have a short cut for operands of one register. The builders choose the short cut
  whenever it applies.

  - `Expr.run?` evaluates with every register access checked.
  - `isSome_run?` says that no access of a built expression leaves the register file, and
    `Expr.eval` is the evaluation that this allows.
-/

namespace RuleChain

/-- A step of a rule. -/
inductive Expr where
  | maskedCompare (c : MaskedCompare)
  | wordPayload (p : WordPayload)
  | compare (c : Compare)
  | payload (p : Payload)
  | immediate (i : Immediate)
deriving DecidableEq

namespace Expr

instance : Inhabited Expr := ⟨.immediate (.verdict .proceed)⟩

/-! ### Builders -/

/-- A comparison of register bytes with a constant. -/
def ofCompare (sreg : UInt8) (op : CompareOp) (data : Bytes) : Except ExprFault Expr :=
  if op = .eq ∧ data ≠ [] ∧ data.length ≤ Word.size then
    (MaskedCompare.exact sreg data).map .maskedCompare
  else (Compare.build sreg op data).map .compare

/-- A comparison of one register under a mask. -/
def ofMasked (sreg : UInt8) (mask data : Bytes) : Except ExprFault Expr :=
  (MaskedCompare.ofBytes sreg mask data).map .maskedCompare

/-- A load from the packet. -/
def ofPayload (base : Header) (offset : UInt32) (len dreg : UInt8) : Except ExprFault Expr :=
  (Payload.build base offset len dreg).map fun payload =>
    match WordPayload.ofPayload? payload with
    | some short => .wordPayload short
    | none => .payload payload

/-- A verdict. -/
def ofVerdict (verdict : Verdict) : Expr := .immediate (.verdict verdict)

/-- A constant for the data registers. -/
def ofBytes (dreg : UInt8) (data : Bytes) : Except ExprFault Expr :=
  (Immediate.ofBytes dreg data).map .immediate

/-! ### Evaluation -/

/-- Evaluates an expression; `none` if it would touch a byte outside the register file. -/
def run? : Expr → Registers → Packet → Option Registers
  | .maskedCompare c, regs, _ => c.run? regs
  | .wordPayload p, regs, packet => p.run? regs packet
  | .compare c, regs, _ => c.run? regs
  | .payload p, regs, packet => p.run? regs packet
  | .immediate i, regs, _ => i.run? regs

theorem isSome_run? (e : Expr) (regs : Registers) (packet : Packet) :
    (e.run? regs packet).isSome := by
  cases e with
  | maskedCompare c => exact c.isSome_run? regs
  | wordPayload p => exact p.isSome_run? regs packet
  | compare c => exact c.isSome_run? regs
  | payload p => exact p.isSome_run? regs packet
  | immediate i => exact i.isSome_run? regs

/-- Evaluates an expression. -/
def eval (e : Expr) (regs : Registers) (packet : Packet) : Registers :=
  (e.run? regs packet).get (e.isSome_run? regs packet)

/-- Evaluates expressions from left to right until one of them writes a verdict; how one of them is
evaluated, and whether that can fail, is left open. -/
@[specialize]
def evalAllBy {m : Type → Type} [Monad m] (eval : Expr → Registers → Packet → m Registers) :
    List Expr → Registers → Packet → m Registers
  | [], regs, _ => pure regs
  | e :: rest, regs, packet => do
    let regs ← eval e regs packet
    if regs.verdict = .proceed then evalAllBy eval rest regs packet else return regs

/-- Evaluates expressions from left to right until one of them writes a verdict. -/
def evalAll (exprs : List Expr) (regs : Registers) (packet : Packet) : Registers :=
  (evalAllBy (m := Id) eval exprs regs packet).run

theorem evalAll_nil (regs : Registers) (packet : Packet) : evalAll [] regs packet = regs := rfl

theorem evalAll_cons (e : Expr) (rest : List Expr) (regs : Registers) (packet : Packet) :
    evalAll (e :: rest) regs packet =
      if (e.eval regs packet).verdict = .proceed then evalAll rest (e.eval regs packet) packet
      else e.eval regs packet :=
  rfl

/-! ### Inspection -/

def name : Expr → String
  | .maskedCompare _ => "cmp_fast"
  | .wordPayload _ => "payload_fast"
  | .compare _ => "cmp"
  | .payload _ => "payload"
  | .immediate _ => "immediate"

/-- The chain that an expression leads to, and how. -/
def target? : Expr → Option (ChainId × JumpKind)
  | .immediate i => i.target?
  | _ => none

end Expr

end RuleChain
