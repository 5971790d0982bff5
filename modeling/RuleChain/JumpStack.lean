/-! # Jump stack

  The places that a traversal has to come back to. The stack holds at most sixteen of them; a
  push onto a full stack is refused.
-/

namespace RuleChain

/-- A stack of saved places, the latest first. -/
structure JumpStack (α : Type) where
  frames : List α
deriving Repr

namespace JumpStack

variable {α : Type}

/-- How many places can be saved. -/
def capacity : Nat := 16

def empty : JumpStack α := ⟨[]⟩

instance : Inhabited (JumpStack α) := ⟨empty⟩

def size (stack : JumpStack α) : Nat := stack.frames.length

def isEmpty (stack : JumpStack α) : Bool := stack.frames.isEmpty

/-- Saves a place, unless the stack is full. -/
def push? (stack : JumpStack α) (frame : α) : Option (JumpStack α) :=
  if stack.size < capacity then some ⟨frame :: stack.frames⟩ else none

/-- Takes the place that was saved last. -/
def pop? (stack : JumpStack α) : Option (α × JumpStack α) :=
  match stack.frames with
  | [] => none
  | frame :: rest => some (frame, ⟨rest⟩)

theorem frames_of_push? {stack stack' : JumpStack α} {frame : α}
    (h : stack.push? frame = some stack') : stack'.frames = frame :: stack.frames := by
  unfold push? at h
  split at h
  · cases h; rfl
  · cases h

theorem size_le_of_push? {stack stack' : JumpStack α} {frame : α}
    (h : stack.push? frame = some stack') : stack'.size ≤ capacity := by
  unfold push? at h
  split at h
  · cases h; assumption
  · cases h

end JumpStack

end RuleChain
