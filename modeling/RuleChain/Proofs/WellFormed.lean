import Mathlib.Data.List.Nodup
import RuleChain.Proofs.Validation

/-! # Well-formed tables

  What holds of a table at every moment, whether or not a transaction is open: ids and names lead
  to the same chains, and ids and handles come from the counters of the table. Each way in which
  the chains of a table change keeps this.

  A table is at rest if moreover both generations show every rule, and the map that they show is
  sound.
-/

namespace RuleChain

/-- The two indexes of the chains agree, and ids and handles come from the counters. -/
structure Table.WellFormed (t : Table) : Prop where
  id_eq : ∀ {id chain}, t.chains.get? id = some chain → chain.id = id
  idOf?_iff : ∀ {name id}, t.chains.idOf? name = some id ↔
    ∃ chain, t.chains.get? id = some chain ∧ chain.name = name
  slots_le : t.chains.slots.length ≤ t.nextChain
  handle_lt : ∀ {id chain}, t.chains.get? id = some chain →
    ∀ rule ∈ chain.rules, rule.handle < t.nextHandle
  handles_nodup : ∀ {id chain}, t.chains.get? id = some chain →
    (chain.rules.map (·.handle)).Nodup

/-- No transaction is open and no commit is under way: both generations show every rule. -/
structure Table.AtRest (t : Table) : Prop where
  wellFormed : t.WellFormed
  marks : ∀ {id chain}, t.chains.get? id = some chain → ∀ rule ∈ chain.rules, rule.mask = .all
  sound : (t.chains.plain t.generation).Sound

/-- Where every rule carries both marks, both generations show all rules. -/
theorem Chain.visibleRules_of_marks {chain : Chain} (h : ∀ rule ∈ chain.rules, rule.mask = .all)
    (g : Generation) : chain.visibleRules g = chain.rules := by
  refine List.filter_eq_self.mpr ?_
  intro rule hrule
  rw [Rule.isActive, h rule hrule, GenMask.get_all]

theorem Chain.plain_eq_of_marks {chain : Chain} (h : ∀ rule ∈ chain.rules, rule.mask = .all)
    (g g' : Generation) : chain.plain g = chain.plain g' := by
  rw [plain, plain, visibleRules_of_marks h, visibleRules_of_marks h]

namespace Table

variable {t : Table}

/-- At rest both generations show the same. -/
theorem AtRest.plain_eq (h : t.AtRest) (g g' : Generation) :
    t.chains.plain g = t.chains.plain g' := by
  funext id
  cases hget : t.chains.get? id with
  | none => rw [ChainMap.plain_eq_none_iff.mpr hget, ChainMap.plain_eq_none_iff.mpr hget]
  | some chain =>
    rw [ChainMap.plain_of_get? hget, ChainMap.plain_of_get? hget,
      Chain.plain_eq_of_marks (h.marks hget) g g']

theorem WellFormed.index_lt (h : t.WellFormed) {id : ChainId} {chain : Chain}
    (hget : t.chains.get? id = some chain) : id.index < t.nextChain :=
  Nat.lt_of_lt_of_le (ChainMap.index_lt_of_get? hget) h.slots_le

/-- What a generation shows tells the marks of the rules. -/
theorem WellFormed.mark_iff (h : t.WellFormed) {id : ChainId} {chain : Chain}
    (hget : t.chains.get? id = some chain) {rule : Rule} (hrule : rule ∈ chain.rules)
    (g : Generation) :
    rule.mask.get g = true ↔ rule.handle ∈ ((t.chains.plain g).rules id).map (·.1) := by
  rw [PlainMap.rules, ChainMap.plain_of_get? hget]
  refine Iff.trans ?_ Chain.mem_plain_handles.symm
  constructor
  · intro hmark
    exact ⟨rule, hrule, rfl, hmark⟩
  · rintro ⟨r, hr, heq, hmark⟩
    -- no handle is given twice, so the rule that is shown is this one
    obtain rfl := List.inj_on_of_nodup_map (h.handles_nodup hget) hr hrule heq
    exact hmark

/-- Ids that have not been given away are free. -/
theorem WellFormed.get?_eq_none (h : t.WellFormed) {id : ChainId} (hle : t.nextChain ≤ id.index) :
    t.chains.get? id = none := by
  cases hget : t.chains.get? id with
  | none => rfl
  | some chain => exact absurd (h.index_lt hget) (Nat.not_lt.mpr hle)

/-- The next chain id is free. -/
theorem WellFormed.get?_next (h : t.WellFormed) : t.chains.get? ⟨t.nextChain⟩ = none :=
  h.get?_eq_none (Nat.le_refl _)

theorem WellFormed.plain_eq_none (h : t.WellFormed) (g : Generation) {id : ChainId}
    (hle : t.nextChain ≤ id.index) : t.chains.plain g id = none :=
  ChainMap.plain_eq_none_iff.mpr (h.get?_eq_none hle)

theorem WellFormed.create (name : String) (ns : Namespace) (shards : Nat) :
    (create name ns shards).WellFormed where
  id_eq h := by cases h
  idOf?_iff := by
    intro name id
    constructor
    · intro h; cases h
    · rintro ⟨chain, h, -⟩; cases h
  slots_le := Nat.le_refl _
  handle_lt h := by cases h
  handles_nodup h := by cases h

/-- Generations, commits and readers do not matter. -/
theorem WellFormed.congr {t' : Table} (h : t.WellFormed) (hchains : t'.chains = t.chains)
    (hhandle : t'.nextHandle = t.nextHandle) (hchain : t'.nextChain = t.nextChain) :
    t'.WellFormed := by
  cases t
  cases t'
  cases hchains
  cases hhandle
  cases hchain
  exact ⟨h.id_eq, h.idOf?_iff, h.slots_le, h.handle_lt, h.handles_nodup⟩

/-- A chain may change if it keeps its id and name and its rules still have different handles. -/
theorem WellFormed.modifyChain (h : t.WellFormed) {id : ChainId} {f : Chain → Chain} {next : Nat}
    (hid : ∀ c, (f c).id = c.id) (hname : ∀ c, (f c).name = c.name)
    (hrules : ∀ c, t.chains.get? id = some c →
      ((f c).rules.map (·.handle)).Nodup ∧ ∀ rule ∈ (f c).rules, rule.handle < next)
    (hnext : t.nextHandle ≤ next) :
    WellFormed { t.modifyChain id f with nextHandle := next } := by
  constructor
  · intro i chain hi
    rcases ChainMap.get?_modify_cases hi with ⟨-, c, hc, rfl⟩ | ⟨-, hc⟩
    · rw [hid, h.id_eq hc]
    · exact h.id_eq hc
  · intro name i
    refine h.idOf?_iff.trans ⟨?_, ?_⟩
    · rintro ⟨c, hc, rfl⟩
      simp only [Table.modifyChain, ChainMap.get?_modify, hc]
      split
      · exact ⟨f c, rfl, hname c⟩
      · exact ⟨c, rfl, rfl⟩
    · rintro ⟨chain, hi, rfl⟩
      rcases ChainMap.get?_modify_cases hi with ⟨-, c, hc, rfl⟩ | ⟨-, hc⟩
      · exact ⟨c, hc, (hname c).symm⟩
      · exact ⟨chain, hc, rfl⟩
  · simpa [Table.modifyChain] using h.slots_le
  · intro i chain hi rule hrule
    rcases ChainMap.get?_modify_cases hi with ⟨rfl, c, hc, rfl⟩ | ⟨-, hc⟩
    · exact (hrules c hc).2 rule hrule
    · exact Nat.lt_of_lt_of_le (h.handle_lt hc rule hrule) hnext
  · intro i chain hi
    rcases ChainMap.get?_modify_cases hi with ⟨rfl, c, hc, rfl⟩ | ⟨-, hc⟩
    · exact (hrules c hc).1
    · exact h.handles_nodup hc

/-- A change of a chain may unlink rules and change their marks. -/
theorem WellFormed.modifyChain_of_sublist (h : t.WellFormed) {id : ChainId} {f : Chain → Chain}
    (hid : ∀ c, (f c).id = c.id) (hname : ∀ c, (f c).name = c.name)
    (hrules : ∀ c, ((f c).rules.map (·.handle)).Sublist (c.rules.map (·.handle))) :
    (t.modifyChain id f).WellFormed := by
  refine h.modifyChain hid hname ?_ (Nat.le_refl t.nextHandle)
  intro c hc
  refine ⟨(h.handles_nodup hc).sublist (hrules c), ?_⟩
  intro rule hrule
  obtain ⟨r, hr, heq⟩ := List.mem_map.mp ((hrules c).subset (List.mem_map_of_mem hrule))
  have hbelow := h.handle_lt hc r hr
  rw [heq] at hbelow
  exact hbelow

theorem WellFormed.erase (h : t.WellFormed) (id : ChainId) :
    WellFormed { t with chains := t.chains.erase id } := by
  have hget : ∀ {i chain}, (t.chains.erase id).get? i = some chain →
      i ≠ id ∧ t.chains.get? i = some chain := by
    intro i chain hi
    rw [ChainMap.get?_erase] at hi
    split at hi
    · cases hi
    · next hne => exact ⟨hne, hi⟩
  constructor
  · intro i chain hi
    exact h.id_eq (hget hi).2
  · intro name i
    cases hc : t.chains.get? id with
    | none =>
      rw [ChainMap.erase_of_get?_eq_none hc]
      exact h.idOf?_iff
    | some c =>
      rw [ChainMap.idOf?_erase hc]
      constructor
      · intro hi
        split at hi
        · cases hi
        · next hne =>
          obtain ⟨chain, hchain, rfl⟩ := h.idOf?_iff.mp hi
          refine ⟨chain, ?_, rfl⟩
          rw [ChainMap.get?_erase, if_neg, hchain]
          rintro rfl
          -- then the chain found by the name would be the erased one
          have heq : chain = c := Option.some.inj (hchain.symm.trans hc)
          exact hne (congrArg Chain.name heq)
      · rintro ⟨chain, hi, rfl⟩
        obtain ⟨hne, hchain⟩ := hget hi
        rw [if_neg]
        · exact h.idOf?_iff.mpr ⟨chain, hchain, rfl⟩
        · -- names lead to one id, so the erased chain had another name
          intro heq
          have hid := h.idOf?_iff.mpr ⟨c, hc, rfl⟩
          rw [← heq, h.idOf?_iff.mpr ⟨chain, hchain, rfl⟩] at hid
          exact hne (Option.some.inj hid)
  · simpa using h.slots_le
  · intro i chain hi
    exact h.handle_lt (hget hi).2
  · intro i chain hi
    exact h.handles_nodup (hget hi).2

/-- A chain with a free name and the next id may be added. -/
theorem WellFormed.addChain (h : t.WellFormed) {chain : Chain} (hid : chain.id = ⟨t.nextChain⟩)
    (hfree : t.chains.idOf? chain.name = none) (hempty : chain.rules = []) :
    WellFormed { t with chains := t.chains.insert chain, nextChain := t.nextChain + 1 } := by
  have hslots : t.chains.slots.length ≤ chain.id.index := by rw [hid]; exact h.slots_le
  have hget := ChainMap.get?_insert hslots
  constructor
  · intro i c hi
    rw [hget] at hi
    split at hi
    · next heq => cases hi; exact heq.symm
    · exact h.id_eq hi
  · intro name i
    rw [ChainMap.idOf?_insert]
    simp only [hget]
    split
    · next hname =>
      subst hname
      constructor
      · intro hi
        rw [← Option.some.inj hi, if_pos rfl]
        exact ⟨chain, rfl, rfl⟩
      · rintro ⟨c, hi, hname⟩
        split at hi
        · next heq => rw [heq]
        -- an older chain with this name would have it registered, but it is free
        · rw [h.idOf?_iff.mpr ⟨c, hi, hname⟩] at hfree
          cases hfree
    · next hname =>
      refine h.idOf?_iff.trans ⟨?_, ?_⟩
      · rintro ⟨c, hc, rfl⟩
        refine ⟨c, ?_, rfl⟩
        rw [if_neg, hc]
        rintro rfl
        rw [hid, h.get?_next] at hc
        cases hc
      · rintro ⟨c, hi, rfl⟩
        split at hi
        · cases hi; exact absurd rfl hname
        · exact ⟨c, hi, rfl⟩
  · simp only [ChainMap.length_slots_insert, hid]
    have := h.slots_le
    omega
  · intro i c hi rule hrule
    rw [hget] at hi
    split at hi
    · cases hi
      rw [hempty] at hrule
      cases hrule
    · exact h.handle_lt hi rule hrule
  · intro i c hi
    rw [hget] at hi
    split at hi
    · cases hi
      rw [hempty]
      exact List.nodup_nil
    · exact h.handles_nodup hi

end Table

end RuleChain
