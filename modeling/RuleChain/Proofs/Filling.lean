import RuleChain.Proofs.Interpretation
import RuleChain.Proofs.Refinement
import RuleChain.Ruleset.Build

/-! # Filling a transaction with a ruleset

  A ruleset is added to a table by operations of one transaction: its chains come under the next
  ids, in order, and then every rule at the end of its chain, under the next handle.

  - `PlainRuleset.extend` is a ruleset with such chains behind its own.
  - `Ruleset.Filling.Holds` says that a filling has come to that, and `Ruleset.fill_ok` that a
    ruleset is filled in with the chains that it is compiled to.
-/

namespace RuleChain

/-! ### Chains behind others -/

/-- More chains, under the ids from `first` on. -/
def PlainMap.append (p : PlainMap) (first : Nat) (chains : List PlainChain) : PlainMap := fun id =>
  if id.index < first then p id else chains[id.index - first]?

namespace PlainMap

variable {p : PlainMap} {first : Nat} {chains pre post : List PlainChain} {chain : PlainChain}

theorem append_nil (h : ∀ id : ChainId, first ≤ id.index → p id = none) :
    p.append first [] = p := by
  funext id
  unfold append
  split
  · rfl
  · next hle => rw [h id (Nat.not_lt.mp hle), List.getElem?_nil]

theorem index_sub_ne {id : ChainId} {k : Nat} (hne : id ≠ ⟨first + k⟩) (hle : first ≤ id.index) :
    id.index - first ≠ k := by
  intro heq
  have hindex : id.index = first + k := by omega
  exact hne (congrArg ChainId.mk hindex)

theorem append_of_getElem? {k : Nat} (h : chains[k]? = some chain) :
    p.append first chains ⟨first + k⟩ = some chain := by
  have hnot : ¬ first + k < first := by omega
  rw [append, if_neg hnot, Nat.add_sub_cancel_left]
  exact h

theorem append_at : p.append first (pre ++ chain :: post) ⟨first + pre.length⟩ = some chain :=
  append_of_getElem? (by simp)

theorem insert_append :
    (p.append first chains).insert ⟨first + chains.length⟩ chain =
      p.append first (chains ++ [chain]) := by
  funext id
  unfold insert
  split
  · next heq =>
    subst heq
    exact append_at.symm
  · next hne =>
    unfold append
    split
    · rfl
    · next hle =>
      have hindex := index_sub_ne hne (Nat.not_lt.mp hle)
      rcases Nat.lt_or_gt_of_ne hindex with hlt | hgt
      · rw [List.getElem?_append_left hlt]
      · have hend : (chains ++ [chain]).length ≤ id.index - first := by
          rw [List.length_append]
          exact hgt
        rw [List.getElem?_eq_none (Nat.le_of_lt hgt), List.getElem?_eq_none hend]

theorem modify_append (f : PlainChain → PlainChain) :
    (p.append first (pre ++ chain :: post)).modify ⟨first + pre.length⟩ f =
      p.append first (pre ++ f chain :: post) := by
  funext id
  unfold modify
  split
  · next heq =>
    subst heq
    rw [append_at, append_at, Option.map_some]
  · next hne =>
    unfold append
    split
    · rfl
    · next hle =>
      have hindex := index_sub_ne hne (Nat.not_lt.mp hle)
      rcases Nat.lt_or_gt_of_ne hindex with hlt | hgt
      · rw [List.getElem?_append_left hlt, List.getElem?_append_left hlt]
      · obtain ⟨k, hk⟩ := Nat.exists_eq_add_of_lt hgt
        rw [List.getElem?_append_right (Nat.le_of_lt hgt), List.getElem?_append_right
          (Nat.le_of_lt hgt), hk, show pre.length + k + 1 - pre.length = k + 1 by omega,
          List.getElem?_cons_succ, List.getElem?_cons_succ]

end PlainMap

/-- A ruleset with more chains, whose ids and handles are the next ones. -/
def PlainRuleset.extend (r : PlainRuleset) (chains : List PlainChain) : PlainRuleset where
  chains := r.chains.append r.nextChain chains
  nextChain := r.nextChain + chains.length
  nextHandle := r.nextHandle + (chains.flatMap (·.rules)).length

/-- A name that no chain has is not among those of the chains added. -/
theorem PlainRuleset.name_ne_of_named? {r : PlainRuleset} {chains : List PlainChain} {name : String}
    (h : (r.extend chains).named? name = none) {chain : PlainChain} (hchain : chain ∈ chains) :
    chain.name ≠ name := by
  intro hname
  obtain ⟨pre, post, rfl⟩ := List.append_of_mem hchain
  have hlt : r.nextChain + pre.length < (r.extend (pre ++ chain :: post)).nextChain := by
    simp only [extend, List.length_append, List.length_cons]
    omega
  have hnamed : (r.extend (pre ++ chain :: post)).isNamed name ⟨r.nextChain + pre.length⟩ = true := by
    simp only [isNamed, extend, PlainMap.append_at, Option.any_some, hname, decide_true]
  have hmem : (⟨r.nextChain + pre.length⟩ : ChainId) ∈
      (List.range (r.extend (pre ++ chain :: post)).nextChain).map ChainId.mk :=
    List.mem_map.mpr ⟨_, List.mem_range.mpr hlt, rfl⟩
  exact List.find?_eq_none.mp h _ hmem hnamed

/-! ### Operations -/

namespace Transaction

variable {tx tx' : Transaction}

theorem apply_of_addChain {name : String} {policy : Option Policy} {id : ChainId}
    (h : tx.addChain name policy = .ok (id, tx')) :
    tx.apply (.addChain name policy) = .ok (.chain id, tx') := by
  simp only [apply, h]
  rfl

theorem apply_of_placeRule {id : ChainId} {exprs : List Expr} {place : Place} {handle : Nat}
    (h : tx.placeRule id exprs place = .ok (handle, tx')) :
    tx.apply (.placeRule id exprs place) = .ok (.handle handle, tx') := by
  simp only [apply, h]
  rfl

end Transaction

namespace Ruleset

/-- How far a filling has come, whether or not something was refused. -/
def Filling.reached : Except (EngineError × Filling) Filling → Filling
  | .ok filling => filling
  | .error (_, filling) => filling

section keeps

variable {P : Transaction → Prop} {filling : Filling}
  (hstep : ∀ {tx : Transaction} {op : Transaction.Operation} {answer : Transaction.Answer}
    {tx' : Transaction}, P tx → tx.apply op = .ok (answer, tx') → P tx')
include hstep

theorem addChains_keeps (h : P filling.tx) (specs : List ChainSpec) :
    P (Filling.reached (addChains filling specs)).tx := by
  induction specs generalizing filling with
  | nil => exact h
  | cons spec rest ih =>
    unfold addChains
    split
    · exact h
    · next id tx hadd => exact ih (hstep h (Transaction.apply_of_addChain hadd))

theorem addRules_keeps (h : P filling.tx) (id : ChainId) (specs : List RuleSpec) :
    P (Filling.reached (addRules id filling specs)).tx := by
  induction specs generalizing filling with
  | nil => exact h
  | cons spec rest ih =>
    unfold addRules
    dsimp only
    split
    · exact h
    · next handle tx hplaced =>
      obtain ⟨exprs, -, hplace⟩ := bind_eq_ok_iff.mp hplaced
      exact ih (hstep h (Transaction.apply_of_placeRule hplace))

theorem addAllRules_keeps (h : P filling.tx) (specs : List (ChainSpec × ChainId)) :
    P (Filling.reached (addAllRules filling specs)).tx := by
  induction specs generalizing filling with
  | nil => exact h
  | cons spec rest ih =>
    have hrules := addRules_keeps hstep h spec.2 spec.1.rules
    unfold addAllRules
    split
    · next e hadd =>
      rw [hadd] at hrules
      exact hrules
    · next after hadd =>
      rw [hadd] at hrules
      exact ih hrules

/-- What every operation keeps is kept by a filling, whether or not something is refused. -/
theorem fill_keeps {tx : Transaction} (h : P tx) (r : Ruleset) :
    P (Filling.reached (r.fill tx)).tx := by
  have hchains := @addChains_keeps P ⟨tx, []⟩ hstep h r.chains
  unfold fill
  split
  · next e hadd =>
    rw [hadd] at hchains
    exact hchains
  · next filling hadd =>
    rw [hadd] at hchains
    exact addAllRules_keeps hstep hchains _

end keeps

/-! ### What a filling has come to -/

/-- The transaction stands for the ruleset at its beginning, extended by chains. -/
structure Filling.Holds (origin : Table) (filling : Filling) (chains : List PlainChain) :
    Prop where
  isOpen : filling.tx.Open origin
  draft : filling.tx.draft = ⟨(origin.plain origin.generation).extend chains, []⟩
  ids : filling.ids =
    (chains.zipIdx origin.nextChain).map fun (chain, index) => (chain.name, ⟨index⟩)
  names_nodup : (chains.map (·.name)).Nodup
  handles : (chains.flatMap (·.rules)).map (·.1) =
    List.range' origin.nextHandle (chains.flatMap (·.rules)).length

namespace Filling.Holds

variable {origin : Table} {filling after : Filling} {chains pre post : List PlainChain}
  {chain : PlainChain}

theorem begin (h : origin.AtRest) : Filling.Holds origin ⟨origin.begin, []⟩ [] where
  isOpen := .begin h
  draft := by
    rw [h.draft_begin, Table.draft, PlainRuleset.extend, PlainMap.append_nil]
    · rfl
    · intro id hle
      exact h.wellFormed.plain_eq_none _ hle
  ids := rfl
  names_nodup := List.nodup_nil
  handles := rfl

/-- The chains have come under consecutive ids. -/
theorem map_snd_ids (h : filling.Holds origin chains) :
    filling.ids.map (·.2) = (List.range' origin.nextChain chains.length).map ChainId.mk := by
  rw [h.ids, List.map_map, ← List.zipIdx_map_snd, List.map_map]
  rfl

theorem addChain (h : filling.Holds origin chains) {name : String} {policy : Option Policy}
    {id : ChainId} {tx : Transaction} (hadd : filling.tx.addChain name policy = .ok (id, tx)) :
    Filling.Holds origin ⟨tx, filling.ids ++ [(name, id)]⟩ (chains ++ [⟨name, policy, []⟩]) := by
  have happly := Transaction.apply_of_addChain hadd
  have hdraft := Transaction.draft_addChain h.isOpen.edits.wellFormed name policy
  rw [happly, h.draft] at hdraft
  unfold Draft.addChain at hdraft
  dsimp only at hdraft
  split at hdraft
  · cases hdraft
  · next hnamed =>
    have hfree := Option.not_isSome_iff_eq_none.mp hnamed
    obtain ⟨hanswer, hafter⟩ := Prod.mk.inj (Except.ok.inj hdraft)
    cases hanswer
    constructor
    · exact h.isOpen.apply happly
    · rw [← hafter]
      simp only [PlainRuleset.extend, PlainMap.insert_append]
      simp [Nat.add_assoc]
    · rw [h.ids, List.zipIdx_append]
      simp [PlainRuleset.extend, Table.plain]
    · have hne : ∀ chain ∈ chains, chain.name ≠ name := fun chain hchain =>
        PlainRuleset.name_ne_of_named? hfree hchain
      simpa [List.nodup_append] using ⟨h.names_nodup, hne⟩
    · simpa using h.handles

/-- As long as the chains behind are empty, the next handle is that of the rule at the end. -/
theorem placeRule (h : filling.Holds origin (pre ++ chain :: post))
    (hpost : ∀ c ∈ post, c.rules = []) {exprs : List Expr} {handle : Nat} {tx : Transaction}
    (hplace : filling.tx.placeRule ⟨origin.nextChain + pre.length⟩ exprs .back =
      .ok (handle, tx)) :
    Filling.Holds origin { filling with tx } (pre ++ chain.link .back (handle, exprs) :: post) := by
  have happly := Transaction.apply_of_placeRule hplace
  have hdraft := @Transaction.draft_placeRule filling.tx ⟨origin.nextChain + pre.length⟩ exprs .back
  have hlive : filling.tx.draft.live ⟨origin.nextChain + pre.length⟩ = .ok chain := by
    rw [h.draft]
    simp only [Draft.live, PlainRuleset.extend, Table.plain, PlainMap.append_at]
    rfl
  rw [happly, Draft.placeRule, hlive] at hdraft
  obtain ⟨hanswer, hafter⟩ := Prod.mk.inj (Except.ok.inj hdraft)
  rw [h.draft] at hanswer hafter
  have hhandle : origin.nextHandle + ((pre ++ chain :: post).flatMap (·.rules)).length = handle :=
    Transaction.Answer.handle.inj hanswer
  have hnone : post.flatMap (·.rules) = [] := by simpa using hpost
  have hrules : (pre ++ chain.link .back (handle, exprs) :: post).flatMap (·.rules) =
      (pre ++ chain :: post).flatMap (·.rules) ++ [(handle, exprs)] := by
    simp [PlainChain.link, hnone]
  constructor
  · exact h.isOpen.apply happly
  · rw [← hafter]
    simp only [Draft.modify, PlainRuleset.extend, Table.plain, PlainMap.modify_append, hrules,
      hhandle, List.length_append, List.length_cons, List.length_nil, ← Nat.add_assoc]
  · rw [h.ids]
    simp [List.zipIdx_append, PlainChain.link]
  · have hnames := h.names_nodup
    simpa [PlainChain.link] using hnames
  · rw [hrules, List.map_append, h.handles, List.length_append, ← hhandle]
    exact List.range'_1_concat.symm

/-- The chains of a ruleset are there, without rules. -/
theorem addChains (h : filling.Holds origin chains) {specs : List ChainSpec}
    (hadd : Ruleset.addChains filling specs = .ok after) :
    after.Holds origin (chains ++ specs.map fun spec => ⟨spec.name, spec.policy, []⟩) := by
  induction specs generalizing filling chains with
  | nil =>
    cases hadd
    simpa using h
  | cons spec rest ih =>
    unfold Ruleset.addChains at hadd
    split at hadd
    · cases hadd
    · next id tx hchain =>
      have hrest := ih (h.addChain hchain) hadd
      simpa using hrest

/-- The rules of one chain are there, behind those that it had. -/
theorem addRules (h : filling.Holds origin (pre ++ chain :: post))
    (hpost : ∀ c ∈ post, c.rules = []) {specs : List RuleSpec}
    (hadd : Ruleset.addRules ⟨origin.nextChain + pre.length⟩ filling specs = .ok after) :
    after.ids = filling.ids ∧ ∃ rules,
      List.Forall₂ (RuleSpec.Compiled filling.idOf?) specs rules ∧
      after.Holds origin (pre ++ { chain with rules := chain.rules ++ rules } :: post) := by
  induction specs generalizing filling chain with
  | nil =>
    cases hadd
    refine ⟨rfl, [], .nil, ?_⟩
    simpa using h
  | cons spec rest ih =>
    unfold Ruleset.addRules at hadd
    dsimp only at hadd
    split at hadd
    · cases hadd
    · next handle tx hplaced =>
      obtain ⟨exprs, hexprs, hplace⟩ := bind_eq_ok_iff.mp hplaced
      obtain ⟨hids, rules, hrules, hafter⟩ := ih (h.placeRule hpost hplace) hadd
      refine ⟨hids, (handle, exprs) :: rules, .cons hexprs hrules, ?_⟩
      simpa [PlainChain.link] using hafter

/-- The rules of all chains are there, chain by chain. -/
theorem addAllRules {specs : List ChainSpec}
    (h : filling.Holds origin (pre ++ specs.map fun spec => ⟨spec.name, spec.policy, []⟩))
    (hadd : Ruleset.addAllRules filling
      (specs.zip ((List.range' (origin.nextChain + pre.length) specs.length).map ChainId.mk)) =
        .ok after) :
    after.ids = filling.ids ∧ ∃ chains,
      List.Forall₂ (ChainSpec.Compiled filling.idOf?) specs chains ∧
      after.Holds origin (pre ++ chains) := by
  induction specs generalizing filling pre with
  | nil =>
    cases hadd
    exact ⟨rfl, [], .nil, h⟩
  | cons spec rest ih =>
    rw [List.length_cons, List.range'_succ, List.map_cons, List.zip_cons_cons,
      Ruleset.addAllRules] at hadd
    split at hadd
    · cases hadd
    · next filled hrules =>
      obtain ⟨hids, rules, hcompiled, hfilled⟩ := h.addRules (by simp) hrules
      have hnext : origin.nextChain + pre.length + 1 = origin.nextChain +
          (pre ++ [(⟨spec.name, spec.policy, rules⟩ : PlainChain)]).length := by
        rw [List.length_append]
        rfl
      rw [hnext] at hadd
      obtain ⟨hids', chains, hchains, hafter⟩ := @ih filled
        (pre ++ [⟨spec.name, spec.policy, rules⟩]) (by simpa using hfilled) hadd
      have hidOf : filled.idOf? = filling.idOf? := by
        unfold Filling.idOf?
        rw [hids]
      rw [hidOf] at hchains
      refine ⟨hids'.trans hids, ⟨spec.name, spec.policy, rules⟩ :: chains,
        .cons ⟨rfl, rfl, hcompiled⟩ hchains, ?_⟩
      simpa using hafter

end Filling.Holds

/-- A ruleset is filled in with the chains that it is compiled to. -/
theorem fill_ok {origin : Table} (h : origin.AtRest) {r : Ruleset} {filling : Filling}
    (hfill : r.fill origin.begin = .ok filling) :
    ∃ chains, List.Forall₂ (ChainSpec.Compiled filling.idOf?) r.chains chains ∧
      filling.Holds origin chains := by
  unfold fill at hfill
  split at hfill
  · cases hfill
  · next named hchains =>
    have hnamed := (Filling.Holds.begin h).addChains hchains
    rw [hnamed.map_snd_ids, List.nil_append, List.length_map] at hfill
    obtain ⟨hids, chains, hcompiled, hholds⟩ :=
      @Filling.Holds.addAllRules origin named filling [] _ hnamed hfill
    have hidOf : filling.idOf? = named.idOf? := by
      unfold Filling.idOf?
      rw [hids]
    rw [← hidOf] at hcompiled
    exact ⟨chains, hcompiled, hholds⟩

end Ruleset

end RuleChain
