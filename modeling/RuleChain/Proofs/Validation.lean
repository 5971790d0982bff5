import RuleChain.Proofs.Plain
import RuleChain.Table.Validation

/-! # What validation guarantees

  - `Edges.DepthLe` says that every path from a chain is finite and takes at most a number of
    jumps. It is an inductive predicate, so that it also carries the induction over the chains
    below.
  - The search finds such a number for every chain that it leaves (`Edges.depthLe_of_depth`).
  - A map is sound if its targets exist and are no base chains, and if the depths from its base
    chains fit the jump stack. The live chains of a transaction that passes validation are sound
    (`Transaction.sound_of_validate`).
-/

namespace RuleChain

/-! ### Depths -/

/-- Every path from the chain is finite and takes at most `depth` jumps. -/
inductive Edges.DepthLe (edges : Edges) : ChainId → Nat → Prop where
  | intro {id : ChainId} {depth : Nat}
      (room : ∀ target kind, (target, kind) ∈ edges id → kind.depth ≤ depth)
      (below : ∀ target kind, (target, kind) ∈ edges id →
        edges.DepthLe target (depth - kind.depth)) :
      edges.DepthLe id depth

namespace Edges

variable {edges : Edges}

theorem DepthLe.mono {id : ChainId} {a b : Nat} (h : edges.DepthLe id a) (hab : a ≤ b) :
    edges.DepthLe id b := by
  -- every target gains as much room as the chain does
  induction h generalizing b with
  | intro room below ih =>
    constructor
    · intro target kind hmem
      exact Nat.le_trans (room target kind hmem) hab
    · intro target kind hmem
      exact ih target kind hmem (Nat.sub_le_sub_right hab kind.depth)

/-- A bound for a chain from bounds for its targets. -/
theorem DepthLe.of_targets {id : ChainId} {depth : Nat}
    (h : ∀ target kind, (target, kind) ∈ edges id →
      ∃ below, edges.DepthLe target below ∧ below + kind.depth ≤ depth) :
    edges.DepthLe id depth := by
  constructor
  · intro target kind hmem
    obtain ⟨below, -, hle⟩ := h target kind hmem
    omega
  · intro target kind hmem
    obtain ⟨below, hbelow, hle⟩ := h target kind hmem
    exact hbelow.mono (by omega)

/-- A bound stays one when jumps and gotos are taken away. -/
theorem DepthLe.of_subset {edges' : Edges} {id : ChainId} {depth : Nat} (h : edges.DepthLe id depth)
    (hsubset : ∀ {id link}, link ∈ edges' id → link ∈ edges id) : edges'.DepthLe id depth := by
  induction h with
  | intro room below ih =>
    constructor
    · intro target kind hmem
      exact room target kind (hsubset hmem)
    · intro target kind hmem
      exact ih target kind (hsubset hmem)

end Edges

/-! ### The search -/

/-- Every depth that the marks remember has a property. -/
def Marks.Remember (marks : Marks) (P : ChainId → Nat → Prop) : Prop :=
  ∀ id depth, marks.get? id = some (.done depth) → P id depth

namespace Marks

variable {marks : Marks} {P : ChainId → Nat → Prop}

theorem get?_cons (id i : ChainId) (mark : Mark) :
    get? ((id, mark) :: marks) i = if id = i then some mark else marks.get? i := by
  by_cases h : id = i
  · simp [get?, h]
  · simp [get?, h, List.find?_cons_of_neg]

theorem Remember.nil : Remember [] P := by
  intro id depth h
  cases h

/-- That a chain is being visited says nothing of its depth. -/
theorem Remember.visiting (h : marks.Remember P) (id : ChainId) :
    Remember ((id, .visiting) :: marks) P := by
  intro i depth hi
  rw [get?_cons] at hi
  split at hi
  · cases hi
  · exact h i depth hi

theorem Remember.done (h : marks.Remember P) {id : ChainId} {depth : Nat} (hdepth : P id depth) :
    Remember ((id, .done depth) :: marks) P := by
  intro i d hi
  rw [get?_cons] at hi
  split at hi
  · next hid =>
    cases hi
    exact hid ▸ hdepth
  · exact h i d hi

end Marks

namespace Edges

variable {edges : Edges}

/-- The loop over the targets of a chain bounds each of them, if each search does. -/
theorem targets_of_foldlM {search : ChainId → Marks → Except ChainId (Nat × Marks)}
    (hsearch : ∀ {target marks depth marks'}, search target marks = .ok (depth, marks') →
      marks.Remember edges.DepthLe → edges.DepthLe target depth ∧ marks'.Remember edges.DepthLe)
    {targets : List (ChainId × JumpKind)} {best best' : Nat} {marks marks' : Marks}
    (h : targets.foldlM (fun (best, marks) (target, kind) => do
        let (below, marks) ← search target marks
        return (max best (below + kind.depth), marks)) (best, marks) = .ok (best', marks'))
    (hmarks : marks.Remember edges.DepthLe) :
    marks'.Remember edges.DepthLe ∧ best ≤ best' ∧ ∀ target kind, (target, kind) ∈ targets →
      ∃ below, edges.DepthLe target below ∧ below + kind.depth ≤ best' := by
  induction targets generalizing best marks with
  | nil =>
    cases h
    exact ⟨hmarks, Nat.le_refl _, by simp⟩
  | cons first rest ih =>
    -- the rest of the loop starts with the marks and the depth that the first target leaves
    obtain ⟨target, kind⟩ := first
    simp only [List.foldlM_cons, bind, Except.bind] at h
    split at h
    · cases h
    · next found hfound =>
      split at hfound
      · cases hfound
      · next sub hsub =>
        obtain ⟨below, marks₁⟩ := sub
        cases hfound
        obtain ⟨hbelow, hmarks₁⟩ := hsearch hsub hmarks
        obtain ⟨hmarks', hle, hrest⟩ := ih h hmarks₁
        refine ⟨hmarks', by omega, ?_⟩
        intro t k hmem
        rcases List.mem_cons.mp hmem with heq | hmem
        · cases heq
          exact ⟨below, hbelow, by omega⟩
        · exact hrest t k hmem

/-- What the search returns is a bound, and it only remembers bounds. -/
theorem depthLe_of_depth {fuel : Nat} {id : ChainId} {marks marks' : Marks} {depth : Nat}
    (h : edges.depth fuel id marks = .ok (depth, marks')) (hmarks : marks.Remember edges.DepthLe) :
    edges.DepthLe id depth ∧ marks'.Remember edges.DepthLe := by
  -- on the fuel, since every search below a chain has less of it
  induction fuel generalizing id marks marks' depth with
  | zero =>
    unfold Edges.depth at h
    split at h
    · next hdone =>
      cases h
      exact ⟨hmarks id _ hdone, hmarks⟩
    · cases h
    · cases h
  | succ fuel ih =>
    unfold Edges.depth at h
    split at h
    · next hdone =>
      cases h
      exact ⟨hmarks id _ hdone, hmarks⟩
    · cases h
    · simp only [bind, Except.bind] at h
      split at h
      · cases h
      · next loop hloop =>
        obtain ⟨deepest, marks₁⟩ := loop
        cases h
        -- that the chain is being visited claims no bound, so the marks may still be used
        obtain ⟨hmarks₁, -, htargets⟩ :=
          targets_of_foldlM ih hloop (hmarks.visiting id)
        have hid : edges.DepthLe id deepest := .of_targets htargets
        exact ⟨hid, hmarks₁.done hid⟩

end Edges

/-! ### Sound maps -/

namespace PlainMap

/-- The jumps and gotos out of each chain. -/
def edges (p : PlainMap) : Edges := fun id =>
  (p.rules id).flatMap fun rule => rule.2.filterMap Expr.target?

/-- Targets exist and are no base chains, and the jump stack is deep enough for every path from
a base chain. -/
structure Sound (p : PlainMap) : Prop where
  target : ∀ {id target kind}, (target, kind) ∈ p.edges id →
    ∃ dest, p target = some dest ∧ dest.policy = none
  depth : ∀ {id chain}, p id = some chain →
    ∃ depth, p.edges.DepthLe id depth ∧ (chain.policy ≠ none → depth ≤ JumpStack.capacity)

/-- The map has the same chains, and perhaps some that have no rules. -/
structure Extends (q p : PlainMap) : Prop where
  kept : ∀ {id chain}, p id = some chain → q id = some chain
  added : ∀ {id chain}, p id = none → q id = some chain → chain.rules = []

theorem Extends.rules_eq {p q : PlainMap} (h : q.Extends p) : q.rules = p.rules := by
  funext id
  unfold PlainMap.rules
  cases hp : p id with
  | some chain => rw [h.kept hp]
  | none =>
    cases hq : q id with
    | none => rfl
    | some chain => simp [h.added hp hq]

theorem Extends.edges_eq {p q : PlainMap} (h : q.Extends p) : q.edges = p.edges := by
  funext id
  simp only [edges, h.rules_eq]

/-- The map has the same chains with the same policies, perhaps some others, and no jump or goto
besides. -/
structure Thins (q p : PlainMap) : Prop where
  kept : ∀ {id chain}, p id = some chain →
    ∃ chain', q id = some chain' ∧ chain'.policy = chain.policy
  edges : ∀ {id link}, link ∈ q.edges id → link ∈ p.edges id

theorem Extends.thins {p q : PlainMap} (h : q.Extends p) : q.Thins p where
  kept hp := ⟨_, h.kept hp, rfl⟩
  edges hmem := by rwa [h.edges_eq] at hmem

/-- Jumps and gotos can be taken away, and chains without any can be added. -/
theorem Sound.thin {p q : PlainMap} (hp : p.Sound) (h : q.Thins p) : q.Sound where
  target hmem := by
    obtain ⟨dest, hdest, hbase⟩ := hp.target (h.edges hmem)
    obtain ⟨dest', hdest', hpolicy⟩ := h.kept hdest
    exact ⟨dest', hdest', hpolicy.trans hbase⟩
  depth {id chain} hq := by
    cases hpid : p id with
    | some chain' =>
      obtain ⟨c, hc, hpolicy⟩ := h.kept hpid
      cases hc.symm.trans hq
      obtain ⟨depth, hdepth, hle⟩ := hp.depth hpid
      exact ⟨depth, hdepth.of_subset h.edges, fun hne => hle (hpolicy ▸ hne)⟩
    | none =>
      -- a chain that was not there before has no jumps, and nothing is below it
      have hnone : p.edges id = [] := by simp [PlainMap.edges, PlainMap.rules, hpid]
      refine ⟨0, .of_targets ?_, fun _ => Nat.zero_le _⟩
      intro target kind hmem
      have hbefore := h.edges hmem
      rw [hnone] at hbefore
      cases hbefore

/-- Chains without rules do no harm. -/
theorem Sound.extend {p q : PlainMap} (hp : p.Sound) (h : q.Extends p) : q.Sound :=
  hp.thin h.thins

end PlainMap

/-! ### Validated transactions -/

theorem forM_eq_ok_iff {ε α : Type} {f : α → Except ε Unit} {xs : List α} :
    xs.forM f = .ok () ↔ ∀ x ∈ xs, f x = .ok () := by
  induction xs with
  | nil => simp [pure, Except.pure]
  | cons x rest ih =>
    change (f x >>= fun _ => rest.forM f) = .ok () ↔ _
    cases hx : f x with
    | error e => simp [bind, Except.bind, hx]
    | ok u => simpa [bind, Except.bind, hx] using ih

theorem exists_of_forM_eq_error {ε α : Type} {f : α → Except ε Unit} {xs : List α} {e : ε}
    (h : xs.forM f = .error e) : ∃ x ∈ xs, f x = .error e := by
  induction xs with
  | nil => cases h
  | cons x rest ih =>
    change (f x >>= fun _ => rest.forM f) = .error e at h
    cases hx : f x with
    | error e' =>
      rw [hx] at h
      cases h
      exact ⟨x, List.mem_cons_self, hx⟩
    | ok u =>
      rw [hx] at h
      obtain ⟨y, hy, heq⟩ := ih h
      exact ⟨y, List.mem_cons_of_mem _ hy, heq⟩

namespace Transaction

variable {tx : Transaction}

/-- What a transaction will show once it is committed. -/
def live (tx : Transaction) : PlainMap := fun id =>
  if id ∈ tx.deleted then none else tx.table.chains.plain tx.next id

theorem live_eq_map (tx : Transaction) (id : ChainId) :
    tx.live id = (tx.liveChain? id).map (·.plain tx.next) := by
  unfold live liveChain?
  split <;> rfl

theorem edges_live (tx : Transaction) : tx.live.edges = tx.edges := by
  funext id
  simp only [PlainMap.edges, PlainMap.rules, live_eq_map, edges]
  cases tx.liveChain? id with
  | none => rfl
  | some chain => simp only [Option.map_some, Option.getD_some, Chain.plain, List.flatMap_map]; rfl

theorem liveChain?_eq_some_iff {id : ChainId} {chain : Chain} :
    tx.liveChain? id = some chain ↔ id ∉ tx.deleted ∧ tx.table.chains.get? id = some chain := by
  unfold liveChain?
  split
  · next h => simp [h]
  · next h => simp [h]

theorem mem_edges_iff {id target : ChainId} {kind : JumpKind} :
    (target, kind) ∈ tx.edges id ↔ ∃ chain, tx.liveChain? id = some chain ∧
      ∃ rule ∈ chain.visibleRules tx.next, (target, kind) ∈ rule.targets := by
  unfold edges
  cases tx.liveChain? id with
  | none => simp
  | some chain => simp [targetsOf]

theorem target_of_checkTargets {id target : ChainId} {chain : Chain} {kind : JumpKind}
    (hlive : tx.liveChain? id = some chain) (h : tx.checkTargets chain = .ok ())
    (hmem : (target, kind) ∈ tx.edges id) :
    ∃ dest, tx.liveChain? target = some dest ∧ dest.isBase = false := by
  obtain ⟨c, hc, rule, hrule, htarget⟩ := mem_edges_iff.mp hmem
  cases hlive.symm.trans hc
  have hcheck := forM_eq_ok_iff.mp (forM_eq_ok_iff.mp h rule hrule) _ htarget
  simp only [checkTarget] at hcheck
  split at hcheck
  · cases hcheck
  · next dest hdest =>
    split at hcheck
    · cases hcheck
    · next hbase => exact ⟨dest, hdest, Bool.eq_false_iff.mpr hbase⟩

theorem depth_of_checkDepth {fuel : Nat} {marks marks' : Marks} {chain : Chain}
    (h : tx.checkDepth fuel marks chain = .ok marks') :
    ∃ depth, tx.edges.depth fuel chain.id marks = .ok (depth, marks') ∧
      (chain.isBase = true → depth ≤ JumpStack.capacity) := by
  unfold checkDepth at h
  split at h
  · cases h
  · next depth marks₁ hdepth =>
    split at h
    · cases h
    · next hfits =>
      cases h
      exact ⟨depth, hdepth, fun hbase => Nat.not_lt.mp fun hlt => hfits ⟨hbase, hlt⟩⟩

/-- The search over several chains bounds the depth of each. -/
theorem depths_of_foldlM {fuel : Nat} {chains : List Chain} {marks marks' : Marks}
    (h : chains.foldlM (tx.checkDepth fuel) marks = .ok marks')
    (hmarks : marks.Remember tx.edges.DepthLe) :
    ∀ chain ∈ chains, ∃ depth, tx.edges.DepthLe chain.id depth ∧
      (chain.isBase = true → depth ≤ JumpStack.capacity) := by
  -- on the chains; the marks of one search are those that the next one starts with
  induction chains generalizing marks with
  | nil => simp
  | cons chain rest ih =>
    simp only [List.foldlM_cons, bind, Except.bind] at h
    split at h
    · cases h
    · next marks₁ hcheck =>
      obtain ⟨depth, hdepth, hle⟩ := depth_of_checkDepth hcheck
      obtain ⟨hbound, hmarks₁⟩ := Edges.depthLe_of_depth hdepth hmarks
      intro c hc
      rcases List.mem_cons.mp hc with rfl | hc
      · exact ⟨depth, hbound, hle⟩
      · exact ih h hmarks₁ c hc

section ids

variable (hids : ∀ {id chain}, tx.table.chains.get? id = some chain → chain.id = id)

include hids

theorem id_eq_of_live {id : ChainId} {chain : Chain} (h : tx.liveChain? id = some chain) :
    chain.id = id :=
  hids (liveChain?_eq_some_iff.mp h).2

/-- Validation goes through a list of chains, which are those that are found by their ids. -/
theorem mem_liveChains_iff {chain : Chain} :
    chain ∈ tx.liveChains ↔ tx.liveChain? chain.id = some chain := by
  rw [liveChain?_eq_some_iff, liveChains, List.mem_filter, ChainMap.mem_toList]
  constructor
  · rintro ⟨⟨id, hget⟩, hkept⟩
    obtain rfl := hids hget
    exact ⟨of_decide_eq_true hkept, hget⟩
  · rintro ⟨hkept, hget⟩
    exact ⟨⟨_, hget⟩, decide_eq_true hkept⟩

/-- If the targets of all chains pass, they are live and no base chains. -/
theorem target_of_forM (h : tx.liveChains.forM tx.checkTargets = .ok ()) {id target : ChainId}
    {kind : JumpKind} (hmem : (target, kind) ∈ tx.edges id) :
    ∃ dest, tx.liveChain? target = some dest ∧ dest.isBase = false := by
  obtain ⟨chain, hlive, -⟩ := mem_edges_iff.mp hmem
  obtain rfl := id_eq_of_live hids hlive
  have hcheck := forM_eq_ok_iff.mp h chain ((mem_liveChains_iff hids).mpr hlive)
  exact target_of_checkTargets hlive hcheck hmem

/-- A transaction that passes validation leaves a sound map. -/
theorem sound_of_validate (h : tx.validate = .ok ()) : tx.live.Sound := by
  simp only [validate, bind, Except.bind] at h
  split at h
  · cases h
  · next htargets =>
    split at h
    · cases h
    · next marks hdepths =>
      constructor
      · intro id target kind hmem
        rw [edges_live] at hmem
        obtain ⟨dest, hdest, hbase⟩ := target_of_forM hids htargets hmem
        refine ⟨dest.plain tx.next, by rw [live_eq_map, hdest]; rfl, ?_⟩
        simpa [Chain.plain, Chain.isBase] using hbase
      · intro id plain hplain
        rw [live_eq_map, Option.map_eq_some_iff] at hplain
        obtain ⟨chain, hlive, rfl⟩ := hplain
        obtain rfl := id_eq_of_live hids hlive
        have hmem := (mem_liveChains_iff hids).mpr hlive
        obtain ⟨depth, hdepth, hle⟩ := depths_of_foldlM hdepths Marks.Remember.nil chain hmem
        refine ⟨depth, edges_live tx ▸ hdepth, fun hbase => hle ?_⟩
        simpa [Chain.plain, Chain.isBase, Option.isSome_iff_ne_none] using hbase

end ids

end Transaction

end RuleChain
