import Mathlib.Algebra.Order.BigOperators.Group.Finset
import RuleChain.Proofs.Acceptance
import RuleChain.Proofs.Meaning
import RuleChain.Proofs.Representation

/-! # How many rules are visited

  Validation bounds the jumps on a path, but not the number of paths: a chain that several rules
  jump to is processed once for each of them. So an evaluation may visit more rules than there are.

  - `PlainMap.Route` gives the numbers of visits that the rules leave open, whatever the packet.
  - `PlainMap.SingleEntry` says that no chain is named twice. Then every rule is visited at most
    once: a chain is paid from the rules of the chains below it, which do not include the chain, as
    no chain leads back to itself.
  - `System.Reachable.visits_bounded`: an evaluation keeps within the active rules and the room of
    the jump stack exactly if the answer to the packet does, and does so if no chain is named twice.
-/

namespace RuleChain

namespace PlainMap

variable {p : PlainMap} {packet : Packet}

/-! ### Routes -/

/-- The jumps and gotos out of some rules. -/
def links (rules : List (Nat × List Expr)) : List (ChainId × JumpKind) :=
  rules.flatMap fun rule => rule.2.filterMap Expr.target?

/-- The lengths of the routes through some rules. Whatever a rule says about a packet, nothing
follows it, or the rest of the rules, or a chain that it names. -/
inductive Route (p : PlainMap) : List (Nat × List Expr) → Nat → Prop where
  | stop {rules : List (Nat × List Expr)} : p.Route rules 0
  | next {rule : Nat × List Expr} {rest : List (Nat × List Expr)} {n : Nat}
    (goes : p.Route rest n) : p.Route (rule :: rest) (n + 1)
  | jump {rule : Nat × List Expr} {rest : List (Nat × List Expr)} {target : ChainId} {n m : Nat}
    (names : (target, JumpKind.jump) ∈ rule.2.filterMap Expr.target?)
    (called : p.Route (p.rules target) n) (goes : p.Route rest m) :
    p.Route (rule :: rest) (n + m + 1)
  | goto {rule : Nat × List Expr} {rest : List (Nat × List Expr)} {target : ChainId} {n : Nat}
    (names : (target, JumpKind.goto) ∈ rule.2.filterMap Expr.target?)
    (taken : p.Route (p.rules target) n) : p.Route (rule :: rest) (n + 1)

/-- A packet is processed along a route. -/
theorem Processes.route {rules : List (Nat × List Expr)} {data data' : Data} {o : Outcome} {n : Nat}
    (h : p.Processes packet rules data o data' n) : p.Route rules n := by
  induction h with
  | finish => exact .stop
  | mismatch _ _ ih => exact .next ih
  | proceed _ _ ih => exact .next ih
  | final _ => exact .next .stop
  | leave _ => exact .next .stop
  | jump runs _ _ ihCalled ihGoes => exact .jump (runs.target_mem rfl) ihCalled ihGoes
  | jumpDecided runs _ ihCalled => exact .jump (runs.target_mem rfl) ihCalled .stop
  | goto runs _ ihTaken => exact .goto (runs.target_mem rfl) ihTaken

theorem Answers.route {base : ChainId} {policy : Policy} {d : Disposition} {n : Nat}
    (h : p.Answers packet base policy d n) : p.Route (p.rules base) n := by
  cases h with
  | rule decided => exact decided.route
  | accept finished => exact finished.route
  | drop finished => exact finished.route

/-! ### Rules below a chain -/

section below

open Classical in
/-- The chains that a chain leads to, itself included. -/
noncomputable def reach (p : PlainMap) (ids : Finset ChainId) (id : ChainId) : Finset ChainId :=
  ids.filter (p.edges.LeadsTo id)

open Classical in
/-- The chains that a chain leads to by at least one jump or goto. -/
noncomputable def below (p : PlainMap) (ids : Finset ChainId) (id : ChainId) : Finset ChainId :=
  ids.filter (Relation.TransGen p.edges.Names id)

/-- The number of rules in some chains. -/
def rulesIn (p : PlainMap) (ids : Finset ChainId) : Nat := ∑ id ∈ ids, (p.rules id).length

variable {ids : Finset ChainId} {id target : ChainId}

theorem mem_reach : target ∈ p.reach ids id ↔ target ∈ ids ∧ p.edges.LeadsTo id target := by
  simp only [reach, Finset.mem_filter]

theorem mem_below :
    target ∈ p.below ids id ↔ target ∈ ids ∧ Relation.TransGen p.edges.Names id target := by
  simp only [below, Finset.mem_filter]

theorem rulesIn_mono {ids ids' : Finset ChainId} (h : ids ⊆ ids') :
    p.rulesIn ids ≤ p.rulesIn ids' :=
  Finset.sum_le_sum_of_subset h

theorem rulesIn_reach_le (p : PlainMap) (ids : Finset ChainId) (id : ChainId) :
    p.rulesIn (p.reach ids id) ≤ p.rulesIn ids :=
  rulesIn_mono fun _ hi => (mem_reach.mp hi).1

/-- A chain that is not on a cycle adds its rules to those of the chains below it. -/
theorem length_add_rulesIn_below (hids : ∀ id ∉ ids, p.rules id = [])
    (hacyclic : ¬ Relation.TransGen p.edges.Names id id) :
    (p.rules id).length + p.rulesIn (p.below ids id) ≤ p.rulesIn (p.reach ids id) := by
  have hbelow : p.below ids id ⊆ p.reach ids id := by
    intro i hi
    obtain ⟨hi, hpath⟩ := mem_below.mp hi
    exact mem_reach.mpr ⟨hi, hpath.to_reflTransGen⟩
  by_cases hid : id ∈ ids
  · have hnot : id ∉ p.below ids id := fun hmem => hacyclic (mem_below.mp hmem).2
    have hcons : p.rulesIn (Finset.cons id (p.below ids id) hnot) =
        (p.rules id).length + p.rulesIn (p.below ids id) := Finset.sum_cons hnot
    rw [← hcons]
    exact rulesIn_mono (Finset.cons_subset.mpr ⟨mem_reach.mpr ⟨hid, .refl⟩, hbelow⟩)
  · rw [hids id hid, List.length_nil, Nat.zero_add]
    exact rulesIn_mono hbelow

/-- Whatever a target leads to is below the chain that names it. -/
theorem reach_subset_below (hnames : p.edges.Names id target) :
    p.reach ids target ⊆ p.below ids id := by
  intro i hi
  obtain ⟨hi, hpath⟩ := mem_reach.mp hi
  exact mem_below.mpr ⟨hi, Relation.TransGen.head' hnames hpath⟩

/-! ### What a route may cost -/

/-- The price of some rules: one visit for each rule, and for each link all rules that it leads
to. -/
noncomputable def price (p : PlainMap) (ids : Finset ChainId) (rules : List (Nat × List Expr)) :
    Nat :=
  rules.length + ((links rules).map fun link => p.rulesIn (p.reach ids link.1)).sum

theorem price_cons (rule : Nat × List Expr) (rest : List (Nat × List Expr)) :
    p.price ids (rule :: rest) = p.price ids rest + 1 +
      ((rule.2.filterMap Expr.target?).map fun link => p.rulesIn (p.reach ids link.1)).sum := by
  unfold price links
  rw [List.flatMap_cons, List.map_append, List.sum_append, List.length_cons]
  omega

theorem le_price_cons (p : PlainMap) (ids : Finset ChainId) {rule : Nat × List Expr}
    {kind : JumpKind} (hlink : (target, kind) ∈ rule.2.filterMap Expr.target?)
    (rest : List (Nat × List Expr)) :
    p.rulesIn (p.reach ids target) + p.price ids rest + 1 ≤ p.price ids (rule :: rest) := by
  have hone := List.single_le_sum (fun _ _ => Nat.zero_le _) _
    (List.mem_map_of_mem (f := fun link => p.rulesIn (p.reach ids link.1)) hlink)
  rw [price_cons]
  dsimp only at hone
  omega

theorem names_of_mem {rule : Nat × List Expr} {rest : List (Nat × List Expr)} {kind : JumpKind}
    (hrules : ∀ r ∈ rule :: rest, r ∈ p.rules id)
    (hlink : (target, kind) ∈ rule.2.filterMap Expr.target?) : p.edges.Names id target :=
  ⟨kind, List.mem_flatMap.mpr ⟨rule, hrules rule List.mem_cons_self, hlink⟩⟩

/-! ### One path to each chain -/

/-- Of the chains that `root` leads to, none is named by two jumps or gotos. -/
structure SingleEntry (p : PlainMap) (root : ChainId) : Prop where
  nodup : ∀ {id}, p.edges.LeadsTo root id → ((p.edges id).map (·.1)).Nodup
  unique : ∀ {i j target}, p.edges.LeadsTo root i → p.edges.LeadsTo root j →
    p.edges.Names i target → p.edges.Names j target → i = j

namespace SingleEntry

variable {root : ChainId}

/-- If only the root names chains, each of them once, none is named twice. -/
theorem of_flat (hnodup : ((p.edges root).map (·.1)).Nodup)
    (hflat : ∀ id, id ≠ root → p.edges id = []) : p.SingleEntry root := by
  have hroot : ∀ {id target}, p.edges.Names id target → id = root := by
    rintro id target ⟨kind, hmem⟩
    by_contra hne
    rw [hflat id hne] at hmem
    cases hmem
  constructor
  · intro id _
    by_cases hid : id = root
    · rw [hid]
      exact hnodup
    · rw [hflat id hid]
      exact List.nodup_nil
  · intro i j target _ _ hi hj
    rw [hroot hi, hroot hj]

variable (h : p.SingleEntry root)
include h

/-- Of two chains that lead to the same one, one leads to the other. -/
theorem leadsTo_or {t u x : ChainId} (ht : p.edges.LeadsTo root t) (hu : p.edges.LeadsTo root u)
    (htx : p.edges.LeadsTo t x) (hux : p.edges.LeadsTo u x) :
    p.edges.LeadsTo t u ∨ p.edges.LeadsTo u t := by
  induction htx with
  | refl => exact Or.inr hux
  | @tail y x hty hyx ih =>
    rcases Relation.ReflTransGen.cases_tail hux with heq | ⟨z, huz, hzx⟩
    · rw [← heq]
      exact Or.inl (hty.tail hyx)
    · -- both paths come through the only chain that names the last one
      obtain rfl := h.unique (ht.trans hty) (hu.trans huz) hyx hzx
      exact ih huz

/-- Two targets of a chain lead to different chains. -/
theorem disjoint (hacyclic : ∀ id, ¬ Relation.TransGen p.edges.Names id id)
    (hid : p.edges.LeadsTo root id) {t u : ChainId} (ht : p.edges.Names id t)
    (hu : p.edges.Names id u) (hne : t ≠ u) : Disjoint (p.reach ids t) (p.reach ids u) := by
  -- a target cannot be reached from another one, since the path would come through the chain
  have hpath : ∀ {t u}, p.edges.Names id t → p.edges.Names id u → t ≠ u →
      ¬ p.edges.LeadsTo t u := by
    intro t u ht hu hne hleads
    rcases Relation.ReflTransGen.cases_tail hleads with heq | ⟨last, hleads, hlast⟩
    · exact hne heq.symm
    · obtain rfl := h.unique (((hid.tail ht).trans hleads)) hid hlast hu
      exact hacyclic last (Relation.TransGen.head' ht hleads)
  refine Finset.disjoint_left.mpr ?_
  intro x hxt hxu
  rcases h.leadsTo_or (hid.tail ht) (hid.tail hu) (mem_reach.mp hxt).2 (mem_reach.mp hxu).2 with
    htu | hut
  · exact hpath ht hu hne htu
  · exact hpath hu ht hne.symm hut

/-- The rules below a chain can be shared out among its targets. -/
theorem sum_reach_le (hacyclic : ∀ id, ¬ Relation.TransGen p.edges.Names id id)
    (hid : p.edges.LeadsTo root id) :
    ((p.edges id).map fun link => p.rulesIn (p.reach ids link.1)).sum ≤
      p.rulesIn (p.below ids id) := by
  classical
  have hnames : ∀ t ∈ ((p.edges id).map (·.1)).toFinset, p.edges.Names id t := by
    intro t ht
    obtain ⟨⟨t, kind⟩, hmem, rfl⟩ := List.mem_map.mp (List.mem_toFinset.mp ht)
    exact ⟨kind, hmem⟩
  have hsum : ((p.edges id).map fun link => p.rulesIn (p.reach ids link.1)).sum =
      ∑ t ∈ ((p.edges id).map (·.1)).toFinset, p.rulesIn (p.reach ids t) := by
    rw [List.sum_toFinset _ (h.nodup hid), List.map_map]
    rfl
  have hunion : ∑ t ∈ ((p.edges id).map (·.1)).toFinset, p.rulesIn (p.reach ids t) =
      p.rulesIn (((p.edges id).map (·.1)).toFinset.biUnion (p.reach ids)) := by
    refine (Finset.sum_biUnion ?_).symm
    intro t ht u hu hne
    exact h.disjoint hacyclic hid (hnames t ht) (hnames u hu) hne
  rw [hsum, hunion]
  refine rulesIn_mono (Finset.biUnion_subset.mpr ?_)
  intro t ht
  exact reach_subset_below (hnames t ht)

/-- So a chain and its targets are paid from the rules that it leads to. -/
theorem price_rules_le (hids : ∀ id ∉ ids, p.rules id = [])
    (hacyclic : ∀ id, ¬ Relation.TransGen p.edges.Names id id) (hid : p.edges.LeadsTo root id) :
    p.price ids (p.rules id) ≤ p.rulesIn (p.reach ids id) := by
  have hshare := @sum_reach_le p ids id root h hacyclic hid
  have hself := length_add_rulesIn_below hids (hacyclic id)
  exact Nat.le_trans (Nat.add_le_add_left hshare _) hself

/-- A route through some rules of a chain is paid by each rule for itself and by its links for what
they lead to. -/
theorem route_le (hids : ∀ id ∉ ids, p.rules id = [])
    (hacyclic : ∀ id, ¬ Relation.TransGen p.edges.Names id id) {rules : List (Nat × List Expr)}
    {n : Nat} (hroute : p.Route rules n) (hid : p.edges.LeadsTo root id)
    (hrules : ∀ rule ∈ rules, rule ∈ p.rules id) : n ≤ p.price ids rules := by
  induction hroute generalizing id with
  | stop => exact Nat.zero_le _
  | @next rule rest n _ ih =>
    have hrest := ih hid fun r hr => hrules r (List.mem_cons_of_mem _ hr)
    rw [price_cons]
    omega
  | @jump rule rest target n m names _ _ ihCalled ihGoes =>
    have hleads := hid.tail (names_of_mem hrules names)
    have hcalled := ihCalled hleads fun r hr => hr
    have hpaid := h.price_rules_le hids hacyclic hleads
    have hrest := ihGoes hid fun r hr => hrules r (List.mem_cons_of_mem _ hr)
    have hlink := p.le_price_cons ids names rest
    omega
  | @goto rule rest target n names _ ihTaken =>
    have hleads := hid.tail (names_of_mem hrules names)
    have htaken := ihTaken hleads fun r hr => hr
    have hpaid := h.price_rules_le hids hacyclic hleads
    have hlink := p.le_price_cons ids names rest
    omega

/-- No route from the root is longer than there are rules. -/
theorem route_root_le (hids : ∀ id ∉ ids, p.rules id = [])
    (hacyclic : ∀ id, ¬ Relation.TransGen p.edges.Names id id) {n : Nat}
    (hroute : p.Route (p.rules root) n) : n ≤ p.rulesIn ids := by
  have hle := h.route_le hids hacyclic hroute .refl fun r hr => hr
  have hpaid := h.price_rules_le hids hacyclic .refl
  exact Nat.le_trans hle (Nat.le_trans hpaid (p.rulesIn_reach_le ids root))

end SingleEntry

end below

/-- No chain of a sound map leads back to itself. -/
theorem Sound.acyclic (h : p.Sound) (id : ChainId) : ¬ Relation.TransGen p.edges.Names id id := by
  intro hcycle
  cases hid : p id with
  | some chain =>
    obtain ⟨depth, hdepth, -⟩ := h.depth hid
    exact hdepth.acyclic hcycle
  | none =>
    obtain ⟨target, ⟨kind, hmem⟩, -⟩ := Relation.TransGen.head'_iff.mp hcycle
    have hnone : p.edges id = [] := by simp [edges, PlainMap.rules, hid]
    rw [hnone] at hmem
    cases hmem

end PlainMap

/-! ### Tables -/

namespace Table

variable {t : Table}

/-- The chain ids that the table has given away. -/
def ids (t : Table) : Finset ChainId :=
  (Finset.range t.nextChain).map ⟨ChainId.mk, fun _ _ heq => ChainId.mk.inj heq⟩

theorem WellFormed.rules_eq_nil (h : t.WellFormed) (g : Generation) :
    ∀ id ∉ t.ids, (t.chains.plain g).rules id = [] := by
  intro id hid
  have hle : t.nextChain ≤ id.index := by
    by_contra hlt
    exact hid (Finset.mem_map.mpr ⟨id.index, Finset.mem_range.mpr (Nat.not_le.mp hlt), rfl⟩)
  rw [PlainMap.rules, h.plain_eq_none g hle]
  rfl

theorem WellFormed.rulesIn_ids (h : t.WellFormed) :
    (t.chains.plain t.generation).rulesIn t.ids = t.activeRules := by
  rw [activeRules_eq_sum h.slots_le, PlainMap.rulesIn, ids, Finset.sum_map]
  rfl

end Table

/-! ### Evaluations -/

/-- An evaluation visits at most so many rules, and does not run out of steps if it may visit as
many. -/
structure Evaluator.BoundedBy (ev : Evaluator) (t : Table) (packet : Packet) (base : ChainId)
    (bound : Nat) : Prop where
  visited_le : ∀ e, (ev.tryEvaluate t packet base).result = .ok e → e.visited ≤ bound
  not_exhausted : bound ≤ ev.maxSteps → ∀ name budget,
    (ev.tryEvaluate t packet base).result ≠ .error (.stepBudgetExhausted name budget)

/-- An evaluation keeps within a bound if the answer to the packet does, and otherwise only if it is
broken off before. -/
theorem Evaluator.boundedBy_iff {ev : Evaluator} {t : Table} {packet : Packet} {base : ChainId}
    {d : Disposition} {n bound : Nat}
    (hwithin : n ≤ ev.maxSteps → (ev.tryEvaluate t packet base).result = .ok ⟨d, n⟩)
    (hbeyond : ev.maxSteps < n → ∃ name, (ev.tryEvaluate t packet base).result =
      .error (.stepBudgetExhausted name ev.maxSteps)) :
    ev.BoundedBy t packet base bound ↔ n ≤ bound ∨ ev.maxSteps < bound := by
  constructor
  · intro h
    rcases Nat.lt_or_ge ev.maxSteps bound with hlt | hle
    · exact Or.inr hlt
    rcases Nat.lt_or_ge ev.maxSteps n with hshort | hlong
    · obtain ⟨name, herror⟩ := hbeyond hshort
      exact absurd herror (h.not_exhausted hle name ev.maxSteps)
    · exact Or.inl (h.visited_le _ (hwithin hlong))
  · intro h
    constructor
    · intro e hresult
      obtain ⟨rfl, hlong⟩ := Evaluation.eq_of_ok hresult hwithin hbeyond
      dsimp only
      omega
    · intro hle name budget herror
      cases (hwithin (by omega)).symm.trans herror

namespace System

/-- The answer to a packet comes with a number of visits. An evaluation visits at most as many rules
as there are active rules and places in the jump stack together, and is not broken off if it may
visit so many, exactly if that number is not greater or the evaluation is broken off before. The
number is the length of a route; and no route is longer than there are active rules if no chain that
the base chain leads to is named by two jumps or gotos. -/
theorem Reachable.visits_bounded {t : Table} {guards : List Generation}
    (h : Reachable ⟨.rest t, guards⟩) {base : ChainId} {chain : Chain} {info : BaseChain}
    (hget : t.chains.get? base = some chain) (hinfo : chain.base = some info) {packet : Packet}
    (hns : info.ns = packet.ns) :
    ∃ d n, (t.chains.plain t.generation).Answers packet base info.policy d n ∧
      (∀ d' n', (t.chains.plain t.generation).Answers packet base info.policy d' n' →
        d' = d ∧ n' = n) ∧
      (∀ ev : Evaluator, ev.BoundedBy t packet base (t.activeRules + JumpStack.capacity) ↔
        n ≤ t.activeRules + JumpStack.capacity ∨
          ev.maxSteps < t.activeRules + JumpStack.capacity) ∧
      (t.chains.plain t.generation).Route ((t.chains.plain t.generation).rules base) n ∧
      ((t.chains.plain t.generation).SingleEntry base →
        ∀ k, (t.chains.plain t.generation).Route ((t.chains.plain t.generation).rules base) k →
          k ≤ t.activeRules) := by
  obtain ⟨hrest, -⟩ := h.inv.good
  obtain ⟨d, n, hanswer, hunique, hfinds⟩ := h.exists_answer hget hinfo hns
  refine ⟨d, n, hanswer, hunique, fun ev => ?_, hanswer.route, fun hsingle k hroute => ?_⟩
  · exact Evaluator.boundedBy_iff (hfinds ev).1 (hfinds ev).2
  · rw [← hrest.wellFormed.rulesIn_ids]
    exact hsingle.route_root_le (hrest.wellFormed.rules_eq_nil t.generation) hrest.sound.acyclic
      hroute

/-- A base chain that jumps to one other chain names no chain twice. -/
theorem Reachable.visits_bounded_single : ∃ (t : Table) (chain : Chain) (info : BaseChain),
    Reachable ⟨.rest t, []⟩ ∧ t.chains.get? ⟨0⟩ = some chain ∧ chain.base = some info ∧
    info.ns = (default : Packet).ns ∧ (t.chains.plain t.generation).SingleEntry ⟨0⟩ ∧
    ∀ ev : Evaluator, ev.BoundedBy t default ⟨0⟩ (2 + JumpStack.capacity) := by
  have committed := (((create "filter" .initial 1).step .begin).applyAll
    [.addChain "input" (some .accept), .addChain "web" none,
      .placeRule ⟨0⟩ [.ofVerdict (.jump ⟨1⟩)] .back,
      .placeRule ⟨1⟩ [.ofVerdict .leave] .back]).commit
  obtain ⟨d, n, -, -, hbounded, hroute, hsingle⟩ :=
    @Reachable.visits_bounded _ _ committed ⟨0⟩ _ _ rfl rfl default rfl
  refine ⟨_, _, _, committed, rfl, rfl, rfl, ?_⟩
  refine (and_iff_left_of_imp fun hentry ev => (hbounded ev).mpr (Or.inl ?_)).mpr ?_
  · exact Nat.le_trans (hsingle hentry n hroute) (Nat.le_add_right _ _)
  refine .of_flat (List.nodup_singleton (⟨1⟩ : ChainId)) ?_
  intro id hne
  match id with
  | ⟨0⟩ => exact absurd rfl hne
  | ⟨1⟩ => rfl
  | ⟨_ + 2⟩ => rfl

/-- Four chains, each of which jumps to the next one twice: the eight rules are visited thirty
times, and an evaluation that may take as many steps as there are rules and places in the jump stack
is broken off. -/
theorem Reachable.visits_doubled : ∃ (t : Table) (chain : Chain) (info : BaseChain),
    Reachable ⟨.rest t, []⟩ ∧ t.chains.get? ⟨0⟩ = some chain ∧ chain.base = some info ∧
    info.ns = (default : Packet).ns ∧ t.activeRules + JumpStack.capacity = 24 ∧
    (Evaluator.plain.tryEvaluate t default ⟨0⟩).result = .ok ⟨.accept, 30⟩ ∧
    (({ Evaluator.plain with maxSteps := 24 } : Evaluator).tryEvaluate t default ⟨0⟩).result =
      .error (.stepBudgetExhausted "third" 24) ∧
    ¬ Evaluator.plain.BoundedBy t default ⟨0⟩ (t.activeRules + JumpStack.capacity) := by
  have committed := (((create "filter" .initial 1).step .begin).applyAll
    [.addChain "first" (some .accept), .addChain "second" none, .addChain "third" none,
      .addChain "fourth" none, .addChain "fifth" none,
      .placeRule ⟨0⟩ [.ofVerdict (.jump ⟨1⟩)] .back, .placeRule ⟨0⟩ [.ofVerdict (.jump ⟨1⟩)] .back,
      .placeRule ⟨1⟩ [.ofVerdict (.jump ⟨2⟩)] .back, .placeRule ⟨1⟩ [.ofVerdict (.jump ⟨2⟩)] .back,
      .placeRule ⟨2⟩ [.ofVerdict (.jump ⟨3⟩)] .back, .placeRule ⟨2⟩ [.ofVerdict (.jump ⟨3⟩)] .back,
      .placeRule ⟨3⟩ [.ofVerdict (.jump ⟨4⟩)] .back,
      .placeRule ⟨3⟩ [.ofVerdict (.jump ⟨4⟩)] .back]).commit
  refine ⟨_, _, _, committed, rfl, rfl, rfl, rfl, rfl, rfl, ?_⟩
  intro hbounded
  have hle := hbounded.visited_le _ rfl
  exact absurd hle (by decide)

end System

end RuleChain
