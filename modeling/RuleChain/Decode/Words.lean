import RuleChain.Decode.Basic
import RuleChain.Expr.Compare
import RuleChain.Packet

/-! # Decoding of names and numbers

  The small types that documents mention by a word or by a number.
-/

namespace RuleChain

namespace Decode

def policy? (form : Form) : Datum → Option Policy :=
  choice? form ([Policy.accept, .drop].map fun p => (p.word, p))

def header? (form : Form) : Datum → Option Header :=
  choice? form ([Header.network, .transport].map fun h => (h.word, h))

def compareOp? (form : Form) : Datum → Option CompareOp :=
  choice? form ([CompareOp.eq, .ne, .lt, .le, .gt, .ge].map fun op => (op.word, op))

def namespace? (d : Datum) : Option Namespace := (uint32? d).map Namespace.mk

def chainId? (d : Datum) : Option ChainId := (natBelow? UInt32.size d).map ChainId.mk

/-- A disposition is a word, or a table with the number of a queue. -/
def disposition? (form : Form) : Datum → Option Disposition
  | .table [("queue", number)] => (uint16? number).map .queue
  | d => choice? form ([Disposition.accept, .drop, .stolen].map fun x => (x.word, x)) d

end Decode

end RuleChain
