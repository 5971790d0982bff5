import RuleChain.Proofs.Filling
import RuleChain.Proofs.Representation

/-! # Built tables mean what is written

  A ruleset from which a table is built says the same as the table does: `Ruleset.apply_ok` tells
  what a table has come to when a ruleset was added, and `Ruleset.build_meaning` compares the
  evaluation of a packet with the interpretation of the ruleset by names.
-/

namespace RuleChain

section related

variable {α β : Type} {R : α → β → Prop} {as : List α} {bs : List β}

theorem exists_of_mem_left (h : List.Forall₂ R as bs) {a : α} (ha : a ∈ as) : ∃ b ∈ bs, R a b := by
  induction h with
  | nil => cases ha
  | @cons x y _ _ hfirst _ ih =>
    rcases List.mem_cons.mp ha with rfl | hrest
    · exact ⟨y, List.mem_cons_self, hfirst⟩
    · obtain ⟨b, hb, hab⟩ := ih hrest
      exact ⟨b, List.mem_cons_of_mem _ hb, hab⟩

theorem exists_of_mem_right (h : List.Forall₂ R as bs) {b : β} (hb : b ∈ bs) : ∃ a ∈ as, R a b :=
  exists_of_mem_left (List.Forall₂.flip h) hb

end related

namespace Ruleset

/-! ### Names of a ruleset -/

theorem chain?_eq_some_iff {r : Ruleset} (h : (r.chains.map (·.name)).Nodup) {name : String}
    {spec : ChainSpec} : r.chain? name = some spec ↔ spec ∈ r.chains ∧ spec.name = name :=
  find?_key_eq_some_iff h

/-- Compiled chains have the names that were written. -/
theorem names_eq {ids : String → Option ChainId} {specs : List ChainSpec} {chains : List PlainChain}
    (h : List.Forall₂ (ChainSpec.Compiled ids) specs chains) :
    chains.map (·.name) = specs.map (·.name) := by
  have hsame : List.Forall₂ (· = ·) (chains.map (·.name)) (specs.map (·.name)) :=
    List.forall₂_map_left_iff.mpr (List.forall₂_map_right_iff.mpr
      (List.Forall₂.flip (h.imp fun _ _ hone => hone.name)))
  rwa [List.forall₂_eq_eq_eq] at hsame

namespace Filling.Holds

variable {origin : Table} {filling : Filling} {chains : List PlainChain} {r : Ruleset}
  {name : String} {id : ChainId} {spec : ChainSpec}

/-- Names lead to the chains added. -/
theorem idOf?_eq_some_iff (h : filling.Holds origin chains) :
    filling.idOf? name = some id ↔
      ∃ k chain, chains[k]? = some chain ∧ chain.name = name ∧ id = ⟨origin.nextChain + k⟩ := by
  have hnodup : (filling.ids.map (·.1)).Nodup := by
    have hnames : filling.ids.map (·.1) = chains.map (·.name) := by
      rw [h.ids, List.map_map, ← List.zipIdx_map_fst origin.nextChain chains, List.map_map,
        List.zipIdx_map_fst]
      rfl
    rw [hnames]
    exact h.names_nodup
  refine (find?_name_eq_some_iff hnodup).trans ?_
  rw [h.ids, List.mem_map]
  constructor
  · rintro ⟨⟨chain, index⟩, hmem, heq⟩
    obtain ⟨rfl, rfl⟩ := Prod.mk.inj heq
    obtain ⟨hle, hk⟩ := List.mk_mem_zipIdx_iff_le_and_getElem?_sub.mp hmem
    exact ⟨index - origin.nextChain, chain, hk, rfl, congrArg ChainId.mk (by omega)⟩
  · rintro ⟨k, chain, hk, rfl, rfl⟩
    refine ⟨(chain, origin.nextChain + k), ?_, rfl⟩
    refine List.mk_mem_zipIdx_iff_le_and_getElem?_sub.mpr ⟨Nat.le_add_right _ _, ?_⟩
    rw [Nat.add_sub_cancel_left]
    exact hk

section compiled

variable (h : filling.Holds origin chains)
  (hcompiled : List.Forall₂ (ChainSpec.Compiled filling.idOf?) r.chains chains)
include h hcompiled

theorem specs_nodup : (r.chains.map (·.name)).Nodup := by
  rw [← names_eq hcompiled]
  exact h.names_nodup

/-- Names lead to the chains that were compiled of the chains with these names. -/
theorem compiled :
    r.Compiled filling.idOf? ((origin.plain origin.generation).extend chains).chains := by
  intro name id hid
  obtain ⟨k, chain, hk, rfl, rfl⟩ := h.idOf?_eq_some_iff.mp hid
  obtain ⟨spec, hspec, hone⟩ := exists_of_mem_right hcompiled (List.mem_of_getElem? hk)
  refine ⟨spec, chain, ?_, ?_, hone⟩
  · exact (chain?_eq_some_iff (h.specs_nodup hcompiled)).mpr ⟨hspec, hone.name.symm⟩
  · exact PlainMap.append_of_getElem? hk

/-- Every chain of the ruleset is found. -/
theorem exists_id (hspec : spec ∈ r.chains) :
    ∃ id chain, filling.idOf? spec.name = some id ∧ r.chain? spec.name = some spec ∧
      ((origin.plain origin.generation).extend chains).chains id = some chain ∧
      chain.name = spec.name ∧ chain.policy = spec.policy := by
  obtain ⟨chain, hchain, hone⟩ := exists_of_mem_left hcompiled hspec
  obtain ⟨k, hk⟩ := List.mem_iff_getElem?.mp hchain
  refine ⟨_, chain, h.idOf?_eq_some_iff.mpr ⟨k, chain, hk, hone.name, rfl⟩, ?_, ?_, hone.name,
    hone.policy⟩
  · exact (chain?_eq_some_iff (h.specs_nodup hcompiled)).mpr ⟨hspec, rfl⟩
  · exact PlainMap.append_of_getElem? hk

end compiled

end Filling.Holds

/-! ### Applied rulesets -/

/-- When a ruleset is accepted, both generations show the chains from before and behind them those
that the ruleset is compiled to. -/
theorem apply_ok {t t' : Table} (h : t.AtRest) {r : Ruleset} {n : Nat} {notices : List Notice}
    (happly : r.apply t = (.ok n, t', notices)) :
    ∃ filling chains, r.fill t.begin = .ok filling ∧ filling.tx.commit.2.1 = t' ∧
      t'.WellFormed ∧ filling.Holds t chains ∧
      List.Forall₂ (ChainSpec.Compiled filling.idOf?) r.chains chains ∧
      ∀ g, t'.plain g = (t.plain t.generation).extend chains := by
  unfold apply at happly
  split at happly
  · cases happly
  · next filling hfill =>
    obtain ⟨chains, hcompiled, hholds⟩ := fill_ok h hfill
    split at happly
    · cases happly
    · next sequence after told hcommit =>
      cases happly
      obtain ⟨-, -, -, hplain, hwf⟩ := hholds.isOpen.commit_ok hcommit
      refine ⟨filling, chains, hfill, by rw [hcommit], hwf, hholds, hcompiled, ?_⟩
      intro g
      rw [hplain g, hholds.draft]
      -- no chain was deleted
      simp [Draft.settle]

/-- A ruleset that is filled in ends as the commit does. -/
theorem commit_of_fill {t : Table} {r : Ruleset} {filling : Filling}
    (hfill : r.fill t.begin = .ok filling) :
    filling.tx.commit = ((r.apply t).1, (r.apply t).2.1, filling.tx.commit.2.2) := by
  unfold apply
  rw [hfill]
  dsimp only
  split
  · next hcommit => rw [hcommit]
  · next hcommit => rw [hcommit]

/-- The table after a ruleset is applied is that of a transaction that was undone or committed. -/
theorem table_apply (r : Ruleset) (t : Table) :
    (r.apply t).2.1 = (Filling.reached (r.fill t.begin)).tx.rollback ∨
      (r.apply t).2.1 = (Filling.reached (r.fill t.begin)).tx.commit.2.1 := by
  cases hfill : r.fill t.begin with
  | error refused =>
    unfold apply
    rw [hfill]
    exact Or.inl rfl
  | ok filling => exact Or.inr (congrArg (·.2.1) (commit_of_fill hfill)).symm

/-- What every write keeps is kept when a ruleset is applied, accepted or not. -/
theorem apply_keeps {P : Table → Prop} (hwrite : ∀ {t t' : Table}, P t → t.Write t' → P t')
    {t : Table} (h : P t) (r : Ruleset) : P (r.apply t).2.1 := by
  have hfilled := @fill_keeps (fun tx => P tx.table)
    (fun htx happly => hwrite htx (Transaction.edit_of_apply happly).write) t.begin h r
  rcases r.table_apply t with heq | heq
  · rw [heq]
    exact hwrite hfilled (Transaction.rollback_write _)
  · rw [heq]
    exact Transaction.commit_keeps hwrite hfilled

/-- However far a filling has come, it has come there by operations. -/
theorem fill_reachable {t : Table} {guards : List Generation}
    (h : System.Reachable ⟨.rest t, guards⟩) (r : Ruleset) :
    System.Reachable ⟨.editing t (Filling.reached (r.fill t.begin)).tx, guards⟩ :=
  @fill_keeps (fun tx => System.Reachable ⟨.editing t tx, guards⟩)
    (fun hreach happly => hreach.step (.operate happly)) t.begin (h.step .begin) r

/-- A ruleset that nobody reads along with is applied by steps. -/
theorem apply_reachable {t : Table} (h : System.Reachable ⟨.rest t, []⟩) (r : Ruleset) :
    System.Reachable ⟨.rest (r.apply t).2.1, []⟩ := by
  have hfilled := fill_reachable h r
  rcases r.table_apply t with heq | heq
  · rw [heq]
    exact hfilled.step .abort
  · rw [heq]
    exact hfilled.commit

end Ruleset

/-! ### Built tables -/

namespace Ruleset

/-- What a table is that was built from a ruleset. -/
theorem build_ok {r : Ruleset} {settings : EngineSettings} {parallelism : Nat} {t : Table}
    (hbuild : r.build settings parallelism = .ok t) :
    ∃ ids, System.Reachable ⟨.rest t, []⟩ ∧ t.ns = r.ns ∧
      r.Compiled ids (t.chains.plain t.generation) ∧
      ∀ spec ∈ r.chains, ∃ id chain, ids spec.name = some id ∧ r.chain? spec.name = some spec ∧
        (t.chains.lookup? spec.name).map (·.id) = some id ∧ t.chains.get? id = some chain ∧
        chain.base.map (·.policy) = spec.policy := by
  unfold build at hbuild
  split at hbuild
  · next n t' notices happly =>
    cases hbuild
    have hcreate := System.Reachable.create r.name r.ns (settings.effectiveShards parallelism)
    obtain ⟨hrest, -⟩ := hcreate.inv.good
    obtain ⟨filling, chains, -, -, hwf, hholds, hcompiled, hplain⟩ := apply_ok hrest happly
    have hreach := apply_reachable hcreate r
    have hns := @apply_keeps (fun t => t.ns = r.ns) (fun hns hwrite => hwrite.ns_eq.trans hns)
      (.create r.name r.ns (settings.effectiveShards parallelism)) rfl r
    rw [happly] at hreach hns
    have hshown : t.chains.plain t.generation = _ := congrArg (·.chains) (hplain t.generation)
    refine ⟨filling.idOf?, hreach, hns, ?_, ?_⟩
    · rw [hshown]
      exact hholds.compiled hcompiled
    · intro spec hspec
      obtain ⟨id, plain, hid, hfound, hat, hname, hpolicy⟩ := hholds.exists_id hcompiled hspec
      rw [← hshown] at hat
      obtain ⟨chain, hget, rfl⟩ := Option.map_eq_some_iff.mp hat
      have hindex : t.chains.idOf? spec.name = some id := hwf.idOf?_iff.mpr ⟨chain, hget, hname⟩
      refine ⟨id, chain, hid, hfound, ?_, hget, hpolicy⟩
      rw [hwf.lookup?_map_id, hindex]
  · cases hbuild

/-- A table that is built from a ruleset judges packets of its namespace as the ruleset says. The
table knows every chain with a policy by its name, there is exactly one answer that the chain gives,
and an evaluation comes to it with the number of visits, unless it may visit fewer rules. -/
theorem build_meaning {r : Ruleset} {settings : EngineSettings} {parallelism : Nat} {t : Table}
    (hbuild : r.build settings parallelism = .ok t) {spec : ChainSpec} (hspec : spec ∈ r.chains)
    {policy : Policy} (hpolicy : spec.policy = some policy) {packet : Packet}
    (hns : packet.ns = r.ns) :
    ∃ base d n, (t.chains.lookup? spec.name).map (·.id) = some base ∧
      r.Answers packet spec policy d n ∧
      (∀ d' n', r.Answers packet spec policy d' n' → d' = d ∧ n' = n) ∧
      ∀ ev : Evaluator,
        (n ≤ ev.maxSteps → (ev.tryEvaluate t packet base).result = .ok ⟨d, n⟩) ∧
        (ev.maxSteps < n → ∃ name, (ev.tryEvaluate t packet base).result =
          .error (.stepBudgetExhausted name ev.maxSteps)) := by
  obtain ⟨ids, hreach, htable, hcompiled, hchains⟩ := build_ok hbuild
  obtain ⟨base, chain, hid, hfound, hlookup, hget, hbase⟩ := hchains spec hspec
  rw [hpolicy] at hbase
  obtain ⟨info, hinfo, rfl⟩ := Option.map_eq_some_iff.mp hbase
  -- the base chain is of the namespace of the table, so the packet is not passed unseen
  have hsame : info.ns = packet.ns := by
    rw [hreach.orderly.ns_eq hget hinfo, hns]
    exact htable
  obtain ⟨d, n, hanswer, hunique, hfinds⟩ := hreach.exists_answer hget hinfo hsame
  have hmeans : ∀ {d n}, r.Answers packet spec info.policy d n ↔
      (t.chains.plain t.generation).Answers packet base info.policy d n :=
    hcompiled.answers_iff hid hfound
  refine ⟨base, d, n, hlookup, hmeans.mpr hanswer, ?_, hfinds⟩
  intro d' n' hanswer'
  exact hunique d' n' (hmeans.mp hanswer')

/-- A jump to a chain that is written later, which puts packets of one protocol into a queue: two
visits for such a packet. Any other packet is visited by the jump's rule only and comes to the
policy, which drops it. -/
theorem build_meaning_queued :
    let input : ChainSpec := ⟨"input", some .drop,
      [⟨none, [.payload .network 9 1 0, .compare 0 .eq "0x06" none,
        .verdict .jump (some "tcp") none]⟩]⟩
    let tcp : ChainSpec := ⟨"tcp", none, [⟨some "seven", [.verdict .queue none (some 7)]⟩]⟩
    let segment := Packet.ofBytes [69, 0, 0, 40, 0, 0, 0, 0, 64, 6]
    let datagram := Packet.ofBytes [69, 0, 0, 40, 0, 0, 0, 0, 64, 17]
    let r : Ruleset := ⟨"filter", .initial, [input, tcp]⟩
    ∃ t, r.build .default 1 = .ok t ∧
      r.Answers segment input .drop (.queue 7) 2 ∧
      (Evaluator.plain.tryEvaluate t segment ⟨0⟩).result = .ok ⟨.queue 7, 2⟩ ∧
      r.Answers datagram input .drop .drop 1 ∧
      (Evaluator.plain.tryEvaluate t datagram ⟨0⟩).result = .ok ⟨.drop, 1⟩ := by
  intro input tcp segment datagram r
  have hevaluated : (r.build .default 1).map (fun t => ((t.chains.lookup? "input").map (·.id),
      (Evaluator.plain.tryEvaluate t segment ⟨0⟩).result,
      (Evaluator.plain.tryEvaluate t datagram ⟨0⟩).result)) =
        .ok (some ⟨0⟩, .ok ⟨.queue 7, 2⟩, .ok ⟨.drop, 1⟩) := by
    -- the evaluations are computed on the closed term only
    revert r datagram segment tcp input
    exact rfl
  obtain ⟨t, hbuild, hevaluated⟩ := map_eq_ok_iff.mp hevaluated
  obtain ⟨hid, hresults⟩ := Prod.mk.inj hevaluated
  obtain ⟨hqueued, hdropped⟩ := Prod.mk.inj hresults
  obtain ⟨base, d, n, hbase, hsegment, -, hfinds⟩ :=
    @build_meaning r .default 1 t hbuild input List.mem_cons_self .drop rfl segment rfl
  obtain ⟨base', d', n', hbase', hdatagram, -, hfinds'⟩ :=
    @build_meaning r .default 1 t hbuild input List.mem_cons_self .drop rfl datagram rfl
  cases hid.symm.trans hbase
  cases hid.symm.trans hbase'
  cases (Evaluation.eq_of_ok hqueued (hfinds Evaluator.plain).1 (hfinds Evaluator.plain).2).1
  cases (Evaluation.eq_of_ok hdropped (hfinds' Evaluator.plain).1 (hfinds' Evaluator.plain).2).1
  exact ⟨t, hbuild, hsegment, hqueued, hdatagram, hdropped⟩

end Ruleset

end RuleChain
