import RuleChain.Proofs.Acceptance
import RuleChain.Proofs.Building

/-! # Which rulesets are admitted

  A ruleset is refused for a name, for an expression, or by validation, and for nothing else:

  - `Ruleset.exists_fill_iff` says when a filling goes through: names are new and different, and
    every expression can be built with the names of the ruleset itself;
  - `Ruleset.CompiledTo` says what the ruleset has then become, chain by chain, and there is only
    one such list of chains (`Ruleset.CompiledTo.unique`);
  - `Ruleset.apply_eq_ok_iff` adds what validation requires of the chains old and new.
-/

namespace RuleChain

/-! ### Names and ids -/

/-- A chain is found among those from before and those behind them. -/
theorem PlainMap.append_eq_some_iff {p : PlainMap} {first : Nat} {chains : List PlainChain}
    (h : ∀ {id : ChainId}, first ≤ id.index → p id = none) {id : ChainId} {chain : PlainChain} :
    p.append first chains id = some chain ↔
      p id = some chain ∨ ∃ k, chains[k]? = some chain ∧ id = ⟨first + k⟩ := by
  unfold append
  split
  · next hlt =>
    refine ⟨Or.inl, ?_⟩
    rintro (hp | ⟨k, -, rfl⟩)
    · exact hp
    · exact absurd hlt (Nat.not_lt.mpr (Nat.le_add_right _ _))
  · next hnot =>
    have hle : first ≤ id.index := Nat.not_lt.mp hnot
    rw [h hle]
    constructor
    · intro hchain
      refine Or.inr ⟨_, hchain, congrArg ChainId.mk ?_⟩
      omega
    · rintro (hnone | ⟨k, hk, rfl⟩)
      · cases hnone
      · rw [Nat.add_sub_cancel_left]
        exact hk

/-- A name leads to a chain if some chain has it. -/
theorem Table.WellFormed.isSome_lookup?_iff {t : Table} (h : t.WellFormed) (g : Generation)
    {name : String} : (t.chains.lookup? name).isSome ↔
      ∃ id chain, t.chains.plain g id = some chain ∧ chain.name = name := by
  rw [← Option.isSome_map, h.lookup?_map_id, Option.isSome_iff_exists]
  constructor
  · rintro ⟨id, hid⟩
    obtain ⟨chain, hget, hname⟩ := h.idOf?_iff.mp hid
    exact ⟨id, chain.plain g, ChainMap.plain_of_get? hget, hname⟩
  · rintro ⟨id, plain, hplain, hname⟩
    obtain ⟨chain, hget, rfl⟩ := Option.map_eq_some_iff.mp hplain
    exact ⟨id, h.idOf?_iff.mpr ⟨chain, hget, hname⟩⟩

/-- A search among numbered chains answers the number of the first that has the name. -/
theorem find?_zipIdx_name (chains : List PlainChain) (first : Nat) (name : String) :
    (((chains.zipIdx first).map fun (chain, index) =>
      (chain.name, (⟨index⟩ : ChainId))).find? (·.1 == name)).map (·.2) =
      (chains.findIdx? (·.name = name)).map fun k => ⟨first + k⟩ := by
  induction chains generalizing first with
  | nil => rfl
  | cons chain rest ih =>
    rw [List.zipIdx_cons, List.map_cons, List.find?_cons, List.findIdx?_cons]
    by_cases hname : chain.name = name
    · simp [hname]
    · have hbeq : (chain.name == name) = false := by simp [hname]
      rw [hbeq, ih (first + 1)]
      simp [hname, Function.comp_def, Nat.add_comm, Nat.add_left_comm]

namespace Ruleset

/-- The id that a chain of the ruleset gets, if `first` is the next one. -/
def idOf? (r : Ruleset) (first : Nat) (name : String) : Option ChainId :=
  (r.chains.findIdx? (·.name = name)).map fun k => ⟨first + k⟩

namespace Filling.Holds

variable {origin : Table} {filling : Filling} {chains pre post : List PlainChain}
  {chain : PlainChain} {r : Ruleset}

theorem plain_eq (h : filling.Holds origin chains) : filling.tx.table.chains.plain filling.tx.next =
    (origin.chains.plain origin.generation).append origin.nextChain chains :=
  congrArg (·.ruleset.chains) h.draft

theorem idOf?_eq (h : filling.Holds origin chains)
    (hnames : chains.map (·.name) = r.chains.map (·.name)) :
    filling.idOf? = r.idOf? origin.nextChain := by
  funext name
  have hsame : ∀ k, chains.findIdx? (·.name = name) = k ↔
      (chains.map (·.name)).findIdx? (· = name) = k := by
    intro k
    rw [List.findIdx?_map]
    rfl
  unfold Filling.idOf? Ruleset.idOf?
  rw [h.ids, find?_zipIdx_name, (hsame _).mpr rfl, hnames, List.findIdx?_map]
  rfl

section names

variable (h : filling.Holds origin chains) (horigin : origin.WellFormed) {name : String}
include h horigin

/-- The names taken are those from before and those of the chains added. -/
theorem isSome_lookup?_iff : (filling.tx.table.chains.lookup? name).isSome ↔
    (origin.chains.lookup? name).isSome ∨ name ∈ chains.map (·.name) := by
  rw [h.isOpen.edits.wellFormed.isSome_lookup?_iff filling.tx.next,
    horigin.isSome_lookup?_iff origin.generation, h.plain_eq, List.mem_map]
  have hsplit : ∀ {id plain}, (origin.chains.plain origin.generation).append origin.nextChain chains
      id = some plain ↔ origin.chains.plain origin.generation id = some plain ∨
        ∃ k, chains[k]? = some plain ∧ id = ⟨origin.nextChain + k⟩ :=
    PlainMap.append_eq_some_iff (horigin.plain_eq_none _)
  constructor
  · rintro ⟨id, plain, hplain, rfl⟩
    rcases hsplit.mp hplain with hold | ⟨k, hk, -⟩
    · exact Or.inl ⟨id, plain, hold, rfl⟩
    · exact Or.inr ⟨plain, List.mem_of_getElem? hk, rfl⟩
  · rintro (⟨id, plain, hold, rfl⟩ | ⟨plain, hmem, rfl⟩)
    · exact ⟨id, plain, hsplit.mpr (Or.inl hold), rfl⟩
    · obtain ⟨k, hk⟩ := List.mem_iff_getElem?.mp hmem
      exact ⟨_, plain, hsplit.mpr (Or.inr ⟨k, hk, rfl⟩), rfl⟩

/-- The chains added have names that no chain had before. -/
theorem lookup?_eq_none {plain : PlainChain} (hplain : plain ∈ chains) :
    ¬ (origin.chains.lookup? plain.name).isSome := by
  rw [horigin.isSome_lookup?_iff origin.generation]
  rintro ⟨id, old, hold, hname⟩
  obtain ⟨k, hk⟩ := List.mem_iff_getElem?.mp hplain
  -- a name leads to one chain only, and the old chain has an older id than the added one
  obtain ⟨chain, hget, rfl⟩ := Option.map_eq_some_iff.mp hold
  have hlt := horigin.index_lt hget
  have hsplit : ∀ {i c}, (origin.chains.plain origin.generation).append origin.nextChain chains i =
      some c → ∃ chain, filling.tx.table.chains.get? i = some chain ∧ chain.name = c.name := by
    intro i c hi
    rw [← h.plain_eq] at hi
    obtain ⟨chain, hget, rfl⟩ := Option.map_eq_some_iff.mp hi
    exact ⟨chain, hget, rfl⟩
  obtain ⟨c, hc, hcname⟩ := hsplit ((PlainMap.append_eq_some_iff
    (horigin.plain_eq_none _)).mpr (Or.inl hold))
  obtain ⟨d, hd, hdname⟩ := hsplit ((PlainMap.append_eq_some_iff
    (horigin.plain_eq_none _)).mpr (Or.inr ⟨k, hk, rfl⟩))
  have hwf := h.isOpen.edits.wellFormed
  have hid := (hwf.idOf?_iff.mpr ⟨c, hc, hcname.trans hname⟩).symm.trans
    (hwf.idOf?_iff.mpr ⟨d, hd, hdname⟩)
  have hindex : id.index = origin.nextChain + k := congrArg ChainId.index (Option.some.inj hid)
  omega

/-- A new name is accepted. -/
theorem exists_addChain (hfree : ¬ (origin.chains.lookup? name).isSome)
    (hnew : name ∉ chains.map (·.name)) (policy : Option Policy) :
    ∃ id tx, filling.tx.addChain name policy = .ok (id, tx) := by
  have hnot : ¬ (filling.tx.table.chains.lookup? name).isSome := by
    rw [h.isSome_lookup?_iff horigin]
    rintro (htaken | hmem)
    · exact hfree htaken
    · exact hnew hmem
  unfold Transaction.addChain
  dsimp only
  rw [if_neg hnot]
  exact ⟨_, _, rfl⟩

end names

/-- A rule is accepted by a chain that was added. -/
theorem exists_placeRule (h : filling.Holds origin (pre ++ chain :: post)) (exprs : List Expr) :
    ∃ handle tx, filling.tx.placeRule ⟨origin.nextChain + pre.length⟩ exprs .back =
      .ok (handle, tx) := by
  have hlive : filling.tx.draft.live ⟨origin.nextChain + pre.length⟩ = .ok chain := by
    rw [h.draft]
    simp only [Draft.live, PlainRuleset.extend, Table.plain, PlainMap.append_at]
    rfl
  rw [Transaction.live_draft] at hlive
  obtain ⟨c, hc, -⟩ := map_eq_ok_iff.mp hlive
  unfold Transaction.placeRule
  rw [hc]
  exact ⟨_, _, rfl⟩

end Filling.Holds

/-! ### Fillings that go through -/

/-- All expressions of the rules can be built. -/
def Builds (ids : String → Option ChainId) (specs : List RuleSpec) : Prop :=
  ∀ spec ∈ specs, ∀ expr ∈ spec.exprs, ∃ built, expr.toExpr ids = .ok built

/-- The rule is built, if each of its expressions is. -/
theorem exists_mapM_iff {ids : String → Option ChainId} {exprs : List ExprSpec} :
    (∃ built, exprs.mapM (ExprSpec.toExpr ids) = .ok built) ↔
      ∀ expr ∈ exprs, ∃ built, expr.toExpr ids = .ok built := by
  simp only [mapM_eq_ok_iff]
  induction exprs with
  | nil => simp
  | cons expr rest ih =>
    simp only [List.forall₂_cons_left_iff, List.forall_mem_cons]
    constructor
    · rintro ⟨-, built, more, hbuilt, hmore, rfl⟩
      exact ⟨⟨built, hbuilt⟩, ih.mp ⟨more, hmore⟩⟩
    · rintro ⟨⟨built, hbuilt⟩, hrest⟩
      obtain ⟨more, hmore⟩ := ih.mpr hrest
      exact ⟨built :: more, built, more, hbuilt, hmore, rfl⟩

namespace Filling.Holds

variable {origin : Table} {filling : Filling} {chains pre post : List PlainChain}
  {chain : PlainChain}

theorem exists_addChains (h : filling.Holds origin chains) (horigin : origin.WellFormed)
    {specs : List ChainSpec} (hnodup : (chains.map (·.name) ++ specs.map (·.name)).Nodup)
    (hfree : ∀ spec ∈ specs, ¬ (origin.chains.lookup? spec.name).isSome) :
    ∃ after, Ruleset.addChains filling specs = .ok after := by
  induction specs generalizing filling chains with
  | nil => exact ⟨filling, rfl⟩
  | cons spec rest ih =>
    have hnew : spec.name ∉ chains.map (·.name) := by
      intro hmem
      exact (List.nodup_append.mp hnodup).2.2 _ hmem _ List.mem_cons_self rfl
    obtain ⟨id, tx, hadd⟩ :=
      h.exists_addChain horigin (hfree spec List.mem_cons_self) hnew spec.policy
    obtain ⟨after, hafter⟩ := ih (h.addChain hadd) (by simpa using hnodup)
      fun s hs => hfree s (List.mem_cons_of_mem _ hs)
    refine ⟨after, ?_⟩
    rw [Ruleset.addChains, hadd]
    exact hafter

theorem exists_addRules (h : filling.Holds origin (pre ++ chain :: post))
    (hpost : ∀ c ∈ post, c.rules = []) {specs : List RuleSpec}
    (hbuilds : Builds filling.idOf? specs) :
    ∃ after, Ruleset.addRules ⟨origin.nextChain + pre.length⟩ filling specs = .ok after := by
  induction specs generalizing filling chain with
  | nil => exact ⟨filling, rfl⟩
  | cons spec rest ih =>
    obtain ⟨exprs, hexprs⟩ := exists_mapM_iff.mpr (hbuilds spec List.mem_cons_self)
    obtain ⟨handle, tx, hplace⟩ := h.exists_placeRule exprs
    -- names are found as before, since a rule adds none
    obtain ⟨after, hafter⟩ := @ih { filling with tx } _ (h.placeRule hpost hplace)
      fun s hs => hbuilds s (List.mem_cons_of_mem _ hs)
    refine ⟨after, ?_⟩
    unfold Ruleset.addRules
    simp only [hexprs, bind, Except.bind, hplace]
    exact hafter

theorem exists_addAllRules {specs : List ChainSpec}
    (h : filling.Holds origin (pre ++ specs.map fun spec => ⟨spec.name, spec.policy, []⟩))
    (hbuilds : ∀ spec ∈ specs, Builds filling.idOf? spec.rules) :
    ∃ after, Ruleset.addAllRules filling
      (specs.zip ((List.range' (origin.nextChain + pre.length) specs.length).map ChainId.mk)) =
        .ok after := by
  induction specs generalizing filling pre with
  | nil => exact ⟨filling, rfl⟩
  | cons spec rest ih =>
    obtain ⟨filled, hrules⟩ := exists_addRules h (by simp)
      (hbuilds spec List.mem_cons_self)
    obtain ⟨hids, rules, -, hfilled⟩ := h.addRules (by simp) hrules
    have hidOf : filled.idOf? = filling.idOf? := by
      unfold Filling.idOf?
      rw [hids]
    obtain ⟨after, hafter⟩ := @ih filled (pre ++ [⟨spec.name, spec.policy, rules⟩])
      (by simpa using hfilled) fun s hs => by
        rw [hidOf]
        exact hbuilds s (List.mem_cons_of_mem _ hs)
    refine ⟨after, ?_⟩
    rw [List.length_append] at hafter
    rw [List.length_cons, List.range'_succ, List.map_cons, List.zip_cons_cons, Ruleset.addAllRules,
      hrules]
    exact hafter

end Filling.Holds

section fill

variable {t : Table} (h : t.AtRest) {r : Ruleset}
include h

/-- A filling goes through if and only if the names are new and different, and all expressions can
be built. -/
theorem exists_fill_iff : (∃ filling, r.fill t.begin = .ok filling) ↔
    (r.chains.map (·.name)).Nodup ∧ (∀ spec ∈ r.chains, ¬ (t.chains.lookup? spec.name).isSome) ∧
      ∀ spec ∈ r.chains, Builds (r.idOf? t.nextChain) spec.rules := by
  constructor
  · rintro ⟨filling, hfill⟩
    obtain ⟨chains, hcompiled, hholds⟩ := fill_ok h hfill
    refine ⟨hholds.specs_nodup hcompiled, ?_, ?_⟩
    · intro spec hspec
      obtain ⟨chain, hchain, hone⟩ := exists_of_mem_left hcompiled hspec
      rw [← hone.name]
      exact hholds.lookup?_eq_none h.wellFormed hchain
    · intro spec hspec rule hrule
      obtain ⟨chain, -, hone⟩ := exists_of_mem_left hcompiled hspec
      obtain ⟨built, -, hbuilt⟩ := exists_of_mem_left hone.rules hrule
      rw [← hholds.idOf?_eq (names_eq hcompiled)]
      exact exists_mapM_iff.mp ⟨built.2, hbuilt⟩
  · rintro ⟨hnodup, hfree, hbuilds⟩
    have hbegin := Filling.Holds.begin h
    obtain ⟨named, hchains⟩ := hbegin.exists_addChains h.wellFormed (by simpa using hnodup) hfree
    have hnamed := hbegin.addChains hchains
    have hidOf : named.idOf? = r.idOf? t.nextChain := hnamed.idOf?_eq (by simp)
    rw [List.nil_append] at hnamed
    obtain ⟨filling, hfilling⟩ := @Filling.Holds.exists_addAllRules t named [] r.chains hnamed
      fun spec hspec => by
        rw [hidOf]
        exact hbuilds spec hspec
    refine ⟨filling, ?_⟩
    unfold fill
    rw [hchains]
    dsimp only
    rw [hnamed.map_snd_ids, List.length_map]
    exact hfilling

end fill

/-! ### What a ruleset is compiled to -/

/-- The chains that a ruleset becomes, if `first` is the next chain id and `handle` the next rule
handle. -/
structure CompiledTo (r : Ruleset) (first handle : Nat) (chains : List PlainChain) : Prop where
  compiled : List.Forall₂ (ChainSpec.Compiled (r.idOf? first)) r.chains chains
  /-- The handles run through the whole ruleset. -/
  handles : (chains.flatMap (·.rules)).map (·.1) = List.range' handle r.ruleCount

/-- Rules that are compiled of the same written rules under the same handles are the same. -/
theorem rules_unique {ids : String → Option ChainId} {specs : List RuleSpec}
    {rules rules' : List (Nat × List Expr)} (h : List.Forall₂ (RuleSpec.Compiled ids) specs rules)
    (h' : List.Forall₂ (RuleSpec.Compiled ids) specs rules')
    (hhandles : rules.map (·.1) = rules'.map (·.1)) : rules = rules' := by
  induction h generalizing rules' with
  | nil =>
    cases h'
    rfl
  | cons hone _ ih =>
    cases h' with
    | cons hone' hrest' =>
      obtain ⟨hhandle, hmore⟩ := List.cons.inj hhandles
      have hexprs := Except.ok.inj (hone.symm.trans hone')
      rw [Prod.ext hhandle hexprs, ih hrest' hmore]

/-- Chains that are compiled of the same written chains under the same handles are the same. -/
theorem chains_unique {ids : String → Option ChainId} {specs : List ChainSpec}
    {chains chains' : List PlainChain} (h : List.Forall₂ (ChainSpec.Compiled ids) specs chains)
    (h' : List.Forall₂ (ChainSpec.Compiled ids) specs chains')
    (hhandles : (chains.flatMap (·.rules)).map (·.1) = (chains'.flatMap (·.rules)).map (·.1)) :
    chains = chains' := by
  induction h generalizing chains' with
  | nil =>
    cases h'
    rfl
  | @cons spec chain _ rest hone _ ih =>
    cases h' with
    | @cons _ chain' _ rest' hone' hrest' =>
      simp only [List.flatMap_cons, List.map_append] at hhandles
      -- both chains have as many rules as are written, so the handles split at the same place
      have hlength : (chain.rules.map (·.1)).length = (chain'.rules.map (·.1)).length := by
        rw [List.length_map, List.length_map, ← hone.rules.length_eq, ← hone'.rules.length_eq]
      obtain ⟨hfirst, hmore⟩ := List.append_inj hhandles hlength
      have hrules := rules_unique hone.rules hone'.rules hfirst
      have hchain : chain = chain' := by
        obtain ⟨name, policy, rules⟩ := chain
        obtain ⟨name', policy', rules'⟩ := chain'
        obtain rfl : rules = rules' := hrules
        obtain rfl : name = name' := hone.name.trans hone'.name.symm
        obtain rfl : policy = policy' := hone.policy.trans hone'.policy.symm
        rfl
      rw [hchain, ih hrest' hmore]

theorem CompiledTo.unique {r : Ruleset} {first handle : Nat} {chains chains' : List PlainChain}
    (h : r.CompiledTo first handle chains) (h' : r.CompiledTo first handle chains') :
    chains = chains' :=
  chains_unique h.compiled h'.compiled (h.handles.trans h'.handles.symm)

/-- As many rules are compiled as are written. -/
theorem length_rules {ids : String → Option ChainId} {specs : List ChainSpec}
    {chains : List PlainChain} (h : List.Forall₂ (ChainSpec.Compiled ids) specs chains) :
    (chains.flatMap (·.rules)).length = (specs.flatMap (·.rules)).length := by
  induction h with
  | nil => rfl
  | cons hone _ ih =>
    rw [List.flatMap_cons, List.flatMap_cons, List.length_append, List.length_append, ih,
      hone.rules.length_eq]

theorem Filling.Holds.compiledTo {origin : Table} {filling : Filling} {chains : List PlainChain}
    {r : Ruleset} (h : filling.Holds origin chains)
    (hcompiled : List.Forall₂ (ChainSpec.Compiled filling.idOf?) r.chains chains) :
    r.CompiledTo origin.nextChain origin.nextHandle chains := by
  rw [h.idOf?_eq (names_eq hcompiled)] at hcompiled
  refine ⟨hcompiled, ?_⟩
  rw [h.handles, length_rules hcompiled]
  rfl

/-! ### Rulesets that are accepted -/

/-- What validation looks at when a ruleset has been filled in. -/
theorem Filling.Holds.live_eq {origin : Table} {filling : Filling} {chains : List PlainChain}
    (h : filling.Holds origin chains) :
    filling.tx.live = (origin.chains.plain origin.generation).append origin.nextChain chains := by
  have hdeleted : filling.tx.deleted = [] := congrArg (·.deleted) h.draft
  rw [← h.plain_eq]
  funext id
  simp [Transaction.live, hdeleted]

/-- A ruleset is accepted if and only if its names are new and different, its expressions can be
built, and the chains old and new together are sound. -/
theorem apply_eq_ok_iff {t : Table} (h : t.AtRest) {r : Ruleset} :
    (∃ n, (r.apply t).1 = .ok n) ↔
      (r.chains.map (·.name)).Nodup ∧
      (∀ spec ∈ r.chains, ¬ (t.chains.lookup? spec.name).isSome) ∧
      (∀ spec ∈ r.chains, Builds (r.idOf? t.nextChain) spec.rules) ∧
      ∃ chains, r.CompiledTo t.nextChain t.nextHandle chains ∧
        ((t.plain t.generation).extend chains).chains.Sound := by
  have hparts := exists_fill_iff h (r := r)
  cases hfill : r.fill t.begin with
  | error e =>
    -- nothing is committed, and one of the first three conditions fails
    have hrefused : ¬ ∃ n, (r.apply t).1 = .ok n := by
      rintro ⟨n, hn⟩
      unfold apply at hn
      rw [hfill] at hn
      cases hn
    have hnone : ¬ ∃ filling, r.fill t.begin = .ok filling := by
      rintro ⟨filling, hok⟩
      rw [hfill] at hok
      cases hok
    refine ⟨fun hok => absurd hok hrefused, ?_⟩
    rintro ⟨hnodup, hfree, hbuilds, -⟩
    exact absurd (hparts.mpr ⟨hnodup, hfree, hbuilds⟩) hnone
  | ok filling =>
    obtain ⟨chains, hwritten, hholds⟩ := fill_ok h hfill
    have hcompiled := hholds.compiledTo hwritten
    obtain ⟨hnodup, hfree, hbuilds⟩ := hparts.mp ⟨filling, hfill⟩
    have hvalid : filling.tx.validate = .ok () ↔
        ((t.plain t.generation).extend chains).chains.Sound := by
      rw [Transaction.validate_eq_ok_iff hholds.isOpen.edits.wellFormed.id_eq, hholds.live_eq]
      rfl
    have hresult : (r.apply t).1 = filling.tx.commit.1 :=
      (congrArg (·.1) (commit_of_fill hfill)).symm
    rw [hresult, Transaction.exists_commit_iff, hvalid]
    constructor
    · intro hsound
      exact ⟨hnodup, hfree, hbuilds, chains, hcompiled, hsound⟩
    · rintro ⟨-, -, -, chains', hcompiled', hsound⟩
      rw [hcompiled.unique hcompiled']
      exact hsound

end Ruleset

end RuleChain
