/-! # Generations

  A ruleset lives in two generations. One of them is current, the other is being prepared, and a
  commit exchanges their roles. Every rule carries a mark for each generation, so that a change
  can be prepared in one of them while packets are classified by the other.
-/

namespace RuleChain

/-- One of the two generations. -/
inductive Generation where
  | zero
  | one
deriving DecidableEq, Repr, Inhabited

namespace Generation

/-- The generation that a commit makes current. -/
def other : Generation → Generation
  | .zero => .one
  | .one => .zero

def index : Generation → Nat
  | .zero => 0
  | .one => 1

/-- The place value of the generation in a mask written as a number. -/
def bit : Generation → Nat
  | .zero => 1
  | .one => 2

@[simp] theorem other_other (g : Generation) : g.other.other = g := by cases g <;> rfl

@[simp] theorem other_ne (g : Generation) : g.other ≠ g := by cases g <;> decide

@[simp] theorem ne_other (g : Generation) : g ≠ g.other := by cases g <;> decide

theorem eq_or_eq_other (g h : Generation) : h = g ∨ h = g.other := by
  cases g <;> cases h <;> simp [other]

end Generation

/-- A value for each generation. -/
structure PerGeneration (α : Type) where
  zero : α
  one : α
deriving DecidableEq, Repr

namespace PerGeneration

open Generation

variable {α : Type}

/-- The same value for both generations. -/
def both (a : α) : PerGeneration α := ⟨a, a⟩

def get (p : PerGeneration α) : Generation → α
  | .zero => p.zero
  | .one => p.one

def set (p : PerGeneration α) (g : Generation) (a : α) : PerGeneration α :=
  match g with
  | .zero => { p with zero := a }
  | .one => { p with one := a }

def modify (p : PerGeneration α) (g : Generation) (f : α → α) : PerGeneration α :=
  p.set g (f (p.get g))

@[simp] theorem get_both (a : α) (g : Generation) : (both a).get g = a := by cases g <;> rfl

@[simp] theorem get_set_self (p : PerGeneration α) (g : Generation) (a : α) :
    (p.set g a).get g = a := by cases g <;> rfl

@[simp] theorem get_set_other (p : PerGeneration α) (g : Generation) (a : α) :
    (p.set g a).get g.other = p.get g.other := by cases g <;> rfl

@[simp] theorem get_other_set (p : PerGeneration α) (g : Generation) (a : α) :
    (p.set g.other a).get g = p.get g := by cases g <;> rfl

theorem get_set (p : PerGeneration α) (g h : Generation) (a : α) :
    (p.set g a).get h = if h = g then a else p.get h := by
  rcases eq_or_eq_other g h with rfl | rfl <;> simp

theorem get_modify (p : PerGeneration α) (g h : Generation) (f : α → α) :
    (p.modify g f).get h = if h = g then f (p.get g) else p.get h :=
  p.get_set g h (f (p.get g))

end PerGeneration

/-- The generations in which a rule is visible. -/
abbrev GenMask := PerGeneration Bool

namespace GenMask

/-- Visible in both generations, as every rule is at rest. -/
def all : GenMask := .both true

/-- Visible in one generation. -/
def only (g : Generation) : GenMask := (PerGeneration.both false).set g true

/-- Visible in no generation. -/
def isDead (mask : GenMask) : Bool := !mask.zero && !mask.one

/-- The mask as a number: the sum of the place values of its generations. -/
def toNat (mask : GenMask) : Nat :=
  (if mask.zero then Generation.zero.bit else 0) + (if mask.one then Generation.one.bit else 0)

@[simp] theorem get_all (g : Generation) : all.get g = true := PerGeneration.get_both true g

@[simp] theorem get_only (g h : Generation) : (only g).get h = decide (h = g) := by
  cases g <;> cases h <;> rfl

theorem eq_all_iff (mask : GenMask) (g : Generation) :
    mask = all ↔ mask.get g = true ∧ mask.get g.other = true := by
  obtain ⟨a, b⟩ := mask
  cases g <;> simp [all, PerGeneration.both, PerGeneration.get, Generation.other, and_comm]

theorem isDead_iff (mask : GenMask) (g : Generation) :
    mask.isDead = true ↔ mask.get g = false ∧ mask.get g.other = false := by
  cases g <;> simp [isDead, PerGeneration.get, Generation.other, and_comm]

end GenMask

end RuleChain
