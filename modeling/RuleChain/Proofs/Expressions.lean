import RuleChain.Expr

/-! # Verdicts of expressions

  An expression leaves the verdict register as it is, records a mismatch, or writes the verdict
  that it was built with. Therefore a rule can only lead to the chains that its expressions name,
  which are the ones that validation looks at.
-/

namespace RuleChain

namespace Registers

variable {regs regs' : Registers} {reg : UInt8}

theorem verdict_overwrite (regs : Registers) (pos : Nat) (bytes : Bytes) :
    (regs.overwrite pos bytes).verdict = regs.verdict := by
  simp only [overwrite]

theorem verdict_store? {src : Bytes} (h : regs.store? reg src = some regs') :
    regs'.verdict = regs.verdict := by
  unfold store? at h
  split at h
  · rw [← Option.some.inj h, verdict_overwrite]
  · cases h

theorem verdict_setWord? {word : UInt32} (h : regs.setWord? reg word = some regs') :
    regs'.verdict = regs.verdict := by
  unfold setWord? at h
  split at h
  · rw [← Option.some.inj h, verdict_overwrite]
  · cases h

end Registers

namespace Expr

variable {regs regs' : Registers} {packet : Packet}

theorem verdict_payload {p : Payload} (h : p.run? regs packet = some regs') :
    regs'.verdict = regs.verdict ∨ regs'.verdict = .mismatch := by
  unfold Payload.run? at h
  split at h
  · exact Or.inl (Registers.verdict_store? h)
  · cases h
    exact Or.inr rfl

/-- What an expression does to the verdict register. -/
theorem verdict_run? {e : Expr} (h : e.run? regs packet = some regs') :
    regs'.verdict = regs.verdict ∨ regs'.verdict = .mismatch ∨
      e = .immediate (.verdict regs'.verdict) := by
  cases e with
  | maskedCompare c =>
    simp only [run?, MaskedCompare.run?, Option.bind_eq_bind, Option.bind_eq_some_iff] at h
    obtain ⟨word, -, h⟩ := h
    cases h
    split
    · exact Or.inl rfl
    · exact Or.inr (Or.inl rfl)
  | compare c =>
    simp only [run?, Compare.run?, Option.bind_eq_bind, Option.bind_eq_some_iff] at h
    obtain ⟨bytes, -, h⟩ := h
    cases h
    split
    · exact Or.inl rfl
    · exact Or.inr (Or.inl rfl)
  | payload p => exact (verdict_payload h).imp_right Or.inl
  | wordPayload p =>
    simp only [run?, WordPayload.run?] at h
    split at h
    · split at h
      · exact Or.inl (Registers.verdict_setWord? h)
      · exact (verdict_payload h).imp_right Or.inl
    · exact (verdict_payload h).imp_right Or.inl
  | immediate i =>
    cases i with
    | verdict v =>
      cases h
      exact Or.inr (Or.inr rfl)
    | data operand => exact Or.inl (Registers.verdict_store? h)

theorem run?_eq_some_eval (e : Expr) (regs : Registers) (packet : Packet) :
    e.run? regs packet = some (e.eval regs packet) :=
  (Option.some_get _).symm

/-- A rule leads only to chains that its expressions name. -/
theorem target_mem_of_evalAll {exprs : List Expr} (hregs : regs.verdict = .proceed)
    {target : ChainId × JumpKind}
    (h : (evalAll exprs regs packet).verdict.target? = some target) :
    target ∈ exprs.filterMap Expr.target? := by
  induction exprs generalizing regs with
  | nil =>
    rw [evalAll_nil, hregs] at h
    cases h
  | cons e rest ih =>
    rw [evalAll_cons] at h
    -- either the verdict comes from a later expression, or this one has written it
    by_cases hgoes : (e.eval regs packet).verdict = .proceed
    · rw [if_pos hgoes] at h
      obtain ⟨e', hmem, heq⟩ := List.mem_filterMap.mp (ih hgoes h)
      exact List.mem_filterMap.mpr ⟨e', List.mem_cons_of_mem _ hmem, heq⟩
    · rw [if_neg hgoes] at h
      rcases verdict_run? (run?_eq_some_eval e regs packet) with hsame | hmiss | heq
      · exact absurd (hsame.trans hregs) hgoes
      · rw [hmiss] at h
        cases h
      · refine List.mem_filterMap.mpr ⟨e, List.mem_cons_self, ?_⟩
        rw [heq]
        exact h

end Expr

end RuleChain
