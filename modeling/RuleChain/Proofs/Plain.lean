import RuleChain.Table.Transaction

/-! # Plain views

  What one generation shows of the chains, with the masks left out:

  - a rule is its handle and its expressions;
  - a chain is its name, its policy, and the rules that the generation shows, in order;
  - a map leads from chain ids to such chains.

  The lemmas say what each change of a chain does to its view. A change of the marks of one
  generation cannot be seen in the other, and unlinking dead rules cannot be seen at all.
-/

namespace RuleChain

/-! ### Views -/

/-- A rule without its mask. -/
def Rule.plain (rule : Rule) : Nat × List Expr := (rule.handle, rule.exprs)

/-- A chain without generations. -/
structure PlainChain where
  name : String
  /-- The policy, if it is a base chain. -/
  policy : Option Policy
  /-- The handle and the expressions of each rule. -/
  rules : List (Nat × List Expr)
deriving DecidableEq

/-- The chains with an id, without generations. -/
abbrev PlainMap := ChainId → Option PlainChain

/-- What a generation shows of a chain. -/
def Chain.plain (chain : Chain) (g : Generation) : PlainChain where
  name := chain.name
  policy := chain.base.map (·.policy)
  rules := (chain.visibleRules g).map Rule.plain

/-- What a generation shows of a chain map. -/
def ChainMap.plain (m : ChainMap) (g : Generation) : PlainMap := fun id =>
  (m.get? id).map (·.plain g)

/-- The rules of a chain; a chain that does not exist has none. -/
def PlainMap.rules (p : PlainMap) (id : ChainId) : List (Nat × List Expr) :=
  ((p id).map (·.rules)).getD []

theorem PlainMap.rules_congr {p q : PlainMap} {id : ChainId} (h : p id = q id) :
    p.rules id = q.rules id := by
  simp only [rules, h]

/-! ### Changes of views -/

namespace PlainChain

/-- Links a rule at a place. -/
def link (place : Transaction.Place) (rule : Nat × List Expr) (chain : PlainChain) : PlainChain :=
  { chain with
    rules := match place with
      | .front => rule :: chain.rules
      | .back => chain.rules ++ [rule] }

/-- Removes the rules with some handles. -/
def without (handles : List Nat) (chain : PlainChain) : PlainChain :=
  { chain with rules := chain.rules.filter (·.1 ∉ handles) }

end PlainChain

/-- Puts a chain under an id. -/
def PlainMap.insert (p : PlainMap) (id : ChainId) (chain : PlainChain) : PlainMap :=
  fun i => if i = id then some chain else p i

/-- Changes the chain with an id. -/
def PlainMap.modify (p : PlainMap) (id : ChainId) (f : PlainChain → PlainChain) : PlainMap :=
  fun i => if i = id then (p i).map f else p i

/-! ### The view of a rule list -/

section rules

variable {chain : Chain} {g h : Generation} {handle : Nat}

theorem Rule.mem_visibleRules {rule : Rule} :
    rule ∈ chain.visibleRules g ↔ rule ∈ chain.rules ∧ rule.mask.get g = true :=
  List.mem_filter

/-- A generation shows a handle if a rule with this handle carries its mark. -/
theorem Chain.mem_plain_handles :
    handle ∈ (chain.plain g).rules.map (·.1) ↔
      ∃ rule ∈ chain.rules, rule.handle = handle ∧ rule.mask.get g = true := by
  simp only [plain, List.map_map, List.mem_map, Rule.mem_visibleRules, Function.comp, Rule.plain]
  constructor
  · rintro ⟨rule, ⟨hmem, hmark⟩, hhandle⟩
    exact ⟨rule, hmem, hhandle, hmark⟩
  · rintro ⟨rule, hmem, hhandle, hmark⟩
    exact ⟨rule, ⟨hmem, hmark⟩, hhandle⟩

theorem Chain.plain_rules_eq_nil_iff :
    (chain.plain g).rules = [] ↔ ∀ rule ∈ chain.rules, rule.mask.get g = false := by
  simp [plain, visibleRules, Rule.isActive]

/-- A change that keeps handles, expressions and the marks of a generation cannot be seen in
it. -/
theorem Chain.plain_modifyRule_of_same {f : Rule → Rule} (hplain : ∀ r, (f r).plain = r.plain)
    (hmark : ∀ r, (f r).mask.get g = r.mask.get g) :
    (chain.modifyRule handle f).plain g = chain.plain g := by
  have hstep : ∀ rules : List Rule,
      ((rules.map fun r => if r.handle = handle then f r else r).filter (·.isActive g)).map
        Rule.plain = (rules.filter (·.isActive g)).map Rule.plain := by
    intro rules
    induction rules with
    | nil => rfl
    | cons r rest ih =>
      have hactive : (if r.handle = handle then f r else r).isActive g = r.isActive g := by
        split
        · exact hmark r
        · rfl
      have hsame : (if r.handle = handle then f r else r).plain = r.plain := by
        split
        · exact hplain r
        · rfl
      simp only [List.map_cons, List.filter_cons, hactive]
      split
      · rw [List.map_cons, List.map_cons, hsame, ih]
      · exact ih
  simp only [plain, modifyRule, mapRules, visibleRules, hstep]

theorem Chain.handles_modifyRule {f : Rule → Rule} (hf : ∀ r, (f r).handle = r.handle) :
    (chain.modifyRule handle f).rules.map (·.handle) = chain.rules.map (·.handle) := by
  simp only [modifyRule, mapRules, List.map_map]
  apply List.map_congr_left
  intro r _
  simp only [Function.comp]
  split
  · exact hf r
  · rfl

/-- A rule that loses its mark leaves the view. -/
theorem Chain.plain_deactivate :
    (chain.modifyRule handle (·.deactivate g)).plain g = (chain.plain g).without [handle] := by
  have hstep : ∀ rules : List Rule,
      ((rules.map fun r => if r.handle = handle then r.deactivate g else r).filter
        (·.isActive g)).map Rule.plain =
      ((rules.filter (·.isActive g)).map Rule.plain).filter (·.1 ∉ [handle]) := by
    intro rules
    induction rules with
    | nil => rfl
    | cons r rest ih =>
      by_cases hr : r.handle = handle
      · have hoff : (r.deactivate g).isActive g = false := r.mask.get_set_self g false
        by_cases ha : r.isActive g <;> simp [hr, hoff, ha, ih, Rule.plain]
      · by_cases ha : r.isActive g <;> simp [hr, ha, ih, Rule.plain]
  simp only [plain, modifyRule, mapRules, visibleRules, hstep, PlainChain.without]

/-- A new rule is seen in the generations of its mask. -/
theorem Chain.plain_link (place : Transaction.Place) (rule : Rule) :
    (chain.mapRules (place.link rule)).plain g =
      if rule.isActive g then (chain.plain g).link place rule.plain else chain.plain g := by
  cases place <;> by_cases ha : rule.isActive g <;>
    simp [plain, mapRules, visibleRules, Transaction.Place.link, PlainChain.link, ha]

/-- Unlinking a handle that a generation does not show cannot be seen in it. -/
theorem Chain.plain_unlink (hidden : ∀ r ∈ chain.rules, r.handle = handle → r.mask.get g = false) :
    (chain.unlink handle).plain g = chain.plain g := by
  have hfilter : (chain.rules.filter (·.handle ≠ handle)).filter (·.isActive g) =
      chain.rules.filter (·.isActive g) := by
    rw [List.filter_filter]
    apply List.filter_congr
    intro r hr
    by_cases hh : r.handle = handle
    · simp [hh, Rule.isActive, hidden r hr hh]
    · simp [hh]
  simp only [plain, unlink, mapRules, visibleRules, hfilter]

/-- No generation sees dead rules leave. -/
theorem Chain.plain_unlinkDead : chain.unlinkDead.plain g = chain.plain g := by
  have hfilter : (chain.rules.filter (!·.mask.isDead)).filter (·.isActive g) =
      chain.rules.filter (·.isActive g) := by
    rw [List.filter_filter]
    apply List.filter_congr
    intro r _
    by_cases ha : r.mask.get g = true
    · have : r.mask.isDead = false := by
        rw [Bool.eq_false_iff]
        intro hdead
        rw [((GenMask.isDead_iff r.mask g).mp hdead).1] at ha
        cases ha
      simp [Rule.isActive, ha, this]
    · simp [Rule.isActive, ha]
  simp only [plain, unlinkDead, mapRules, visibleRules, hfilter]

theorem Chain.plain_record (worker : Nat) (length : UInt64) :
    (chain.record worker length).plain g = chain.plain g := by
  cases hb : chain.base <;> simp [plain, record, visibleRules, hb]

end rules

/-! ### The view of a chain map -/

section chainMap

variable {m : ChainMap} {g : Generation} {id i : ChainId}

theorem ChainMap.plain_eq_none_iff : m.plain g i = none ↔ m.get? i = none :=
  Option.map_eq_none_iff

theorem ChainMap.plain_of_get? {chain : Chain} (h : m.get? i = some chain) :
    m.plain g i = some (chain.plain g) := by
  simp only [plain, h, Option.map_some]

/-- A change of a chain is seen in the map as it is seen in the chain. -/
theorem ChainMap.plain_modify {f : Chain → Chain} {f' : PlainChain → PlainChain}
    (h : ∀ chain, m.get? id = some chain → (f chain).plain g = f' (chain.plain g)) :
    (m.modify id f).plain g = (m.plain g).modify id f' := by
  funext i
  simp only [plain, get?_modify, PlainMap.modify]
  split
  · next hi =>
    subst hi
    cases hc : m.get? i with
    | none => rfl
    | some chain => simp only [Option.map_some, h chain hc]
  · rfl

/-- A change of a chain that cannot be seen in the chain cannot be seen in the map. -/
theorem ChainMap.plain_modify_of_same {f : Chain → Chain}
    (h : ∀ chain, m.get? id = some chain → (f chain).plain g = chain.plain g) :
    (m.modify id f).plain g = m.plain g := by
  have hsame : (m.modify id f).plain g = (m.plain g).modify id fun c => c := plain_modify h
  rw [hsame]
  funext i
  simp [PlainMap.modify]

theorem ChainMap.plain_modify_of_ne {f : Chain → Chain} (h : i ≠ id) :
    (m.modify id f).plain g i = m.plain g i := by
  simp only [plain, get?_modify, if_neg h]

/-- A chain that comes after all slots is seen under its id. -/
theorem ChainMap.plain_insert {chain : Chain} (h : m.slots.length ≤ chain.id.index) :
    (m.insert chain).plain g = (m.plain g).insert chain.id (chain.plain g) := by
  funext i
  simp only [plain, get?_insert h, PlainMap.insert]
  split <;> rfl

theorem ChainMap.plain_erase :
    (m.erase id).plain g i = if i = id then none else m.plain g i := by
  simp only [plain, get?_erase]
  split <;> rfl

end chainMap

end RuleChain
