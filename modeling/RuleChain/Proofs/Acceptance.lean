import Mathlib.Data.Finset.Card
import Mathlib.Logic.Relation
import RuleChain.Proofs.System

/-! # What validation accepts

  Validation refuses nothing without a reason. `Transaction.Blames` is what each of its errors says
  of the live chains, and every error is true of them (`Transaction.blames_of_validate`). A sound
  map gives no reason for an error, so it is accepted (`Transaction.validate_eq_ok_iff`).

  That the search tells the truth rests on three facts about its marks:

  - the chains that the search is below lead to the chain that it is at, so that one of them that is
    met again lies on a cycle (`Marks.Above`);
  - each chain that is entered is marked for good, so that there are never fewer units of fuel left
    than chains without a mark (`Marks.Room`), and the fuel is not used up;
  - a depth that is remembered is the number of jumps on some path (`Edges.Takes`). It is also a
    bound, so that a depth reused from an earlier search is still the greatest.
-/

namespace RuleChain

/-! ### Paths -/

namespace Edges

variable {edges : Edges}

/-- A rule of the chain jumps or goes to the target. -/
def Names (edges : Edges) (id target : ChainId) : Prop :=
  ∃ kind, (target, kind) ∈ edges id

/-- Some jumps and gotos, perhaps none, lead from the chain to the target. -/
abbrev LeadsTo (edges : Edges) : ChainId → ChainId → Prop :=
  Relation.ReflTransGen edges.Names

/-- Some jumps and gotos, at least one, lead from the chain back to itself. -/
def Cyclic (edges : Edges) (id : ChainId) : Prop := Relation.TransGen edges.Names id id

/-- Some path from the chain takes this number of jumps. Gotos do not count. -/
inductive Takes (edges : Edges) : ChainId → Nat → Prop where
  | here {id : ChainId} : Takes edges id 0
  | jump {id target : ChainId} {jumps : Nat} (mem : (target, .jump) ∈ edges id)
    (rest : Takes edges target jumps) : Takes edges id (jumps + 1)
  | goto {id target : ChainId} {jumps : Nat} (mem : (target, .goto) ∈ edges id)
    (rest : Takes edges target jumps) : Takes edges id jumps

theorem Takes.step {id target : ChainId} {kind : JumpKind} {jumps : Nat}
    (mem : (target, kind) ∈ edges id) (rest : edges.Takes target jumps) :
    edges.Takes id (jumps + kind.depth) := by
  cases kind with
  | jump => exact .jump mem rest
  | goto => exact .goto mem rest

/-- The greatest number of jumps on a path from the chain. -/
structure Deepest (edges : Edges) (id : ChainId) (depth : Nat) : Prop where
  takes : edges.Takes id depth
  most : ∀ {jumps}, edges.Takes id jumps → jumps ≤ depth

/-- Where every path is finite, no chain leads back to itself. -/
theorem DepthLe.acyclic {id : ChainId} {depth : Nat} (h : edges.DepthLe id depth) :
    ¬ edges.Cyclic id := by
  -- a cycle through the chain is also a cycle through the first chain after it
  induction h with
  | @intro id _ _ _ ih =>
    intro hcycle
    obtain ⟨target, hnames, hback⟩ := Relation.TransGen.head'_iff.mp hcycle
    obtain ⟨kind, hmem⟩ := hnames
    exact ih target kind hmem (Relation.TransGen.tail' hback ⟨kind, hmem⟩)

/-- A bound is a bound for every path. -/
theorem DepthLe.takes_le {id : ChainId} {depth jumps : Nat} (h : edges.DepthLe id depth)
    (htakes : edges.Takes id jumps) : jumps ≤ depth := by
  -- along the path, as every step uses up some of the bound
  induction htakes generalizing depth with
  | here => exact Nat.zero_le depth
  | @jump id target jumps mem rest ih =>
    cases h with
    | intro room below =>
      have hroom : 1 ≤ depth := room target .jump mem
      have hrest : jumps ≤ depth - 1 := ih (below target .jump mem)
      omega
  | @goto id target jumps mem rest ih =>
    cases h with
    | intro room below => exact ih (below target .goto mem)

theorem Takes.max {id : ChainId} {a b : Nat} (ha : edges.Takes id a) (hb : edges.Takes id b) :
    edges.Takes id (max a b) := by
  rcases Nat.le_total a b with hle | hle
  · rwa [Nat.max_eq_right hle]
  · rwa [Nat.max_eq_left hle]

end Edges

/-! ### Marks -/

namespace Marks

variable {edges : Edges} {marks marks' marks'' : Marks} {ids : Finset ChainId}

/-- Every chain that the search is below leads to this one. -/
def Above (marks : Marks) (edges : Edges) (id : ChainId) : Prop :=
  ∀ i, marks.get? i = some .visiting → Relation.TransGen edges.Names i id

/-- The fuel is enough for the chains that have no mark. -/
def Room (marks : Marks) (ids : Finset ChainId) (fuel : Nat) : Prop :=
  (ids.filter fun id => marks.get? id = none).card ≤ fuel

/-- What a search does to the marks: none is lost, and no search is left under way. -/
structure Grows (marks' marks : Marks) : Prop where
  kept : ∀ {id}, marks'.get? id = none → marks.get? id = none
  visiting : ∀ {id}, marks'.get? id = some .visiting → marks.get? id = some .visiting

theorem Grows.refl (marks : Marks) : marks.Grows marks := ⟨fun h => h, fun h => h⟩

theorem Grows.trans (h' : marks''.Grows marks') (h : marks'.Grows marks) : marks''.Grows marks :=
  ⟨fun hnone => h.kept (h'.kept hnone), fun hvisiting => h.visiting (h'.visiting hvisiting)⟩

theorem Grows.above (h : marks'.Grows marks) {id : ChainId} (habove : marks.Above edges id) :
    marks'.Above edges id :=
  fun i hi => habove i (h.visiting hi)

theorem Grows.room (h : marks'.Grows marks) {fuel : Nat} (hroom : marks.Room ids fuel) :
    marks'.Room ids fuel := by
  have hsubset : (ids.filter fun id => marks'.get? id = none) ⊆
      ids.filter fun id => marks.get? id = none :=
    Finset.monotone_filter_right _ fun _ _ hnone => h.kept hnone
  exact Nat.le_trans (Finset.card_le_card hsubset) hroom

/-- A chain that gets its first mark takes one unit of the fuel. -/
theorem Room.visit {id : ChainId} {fuel : Nat} (h : marks.Room ids fuel) (hid : id ∈ ids)
    (hnone : marks.get? id = none) :
    ∃ rest, fuel = rest + 1 ∧ Room ((id, .visiting) :: marks) ids rest := by
  have hmem : id ∈ ids.filter fun i => marks.get? i = none :=
    Finset.mem_filter.mpr ⟨hid, hnone⟩
  have herase : (ids.filter fun i => get? ((id, .visiting) :: marks) i = none) ⊆
      (ids.filter fun i => marks.get? i = none).erase id := by
    intro i hi
    obtain ⟨hi, hmark⟩ := Finset.mem_filter.mp hi
    rw [get?_cons] at hmark
    split at hmark
    · cases hmark
    · next hne =>
      exact Finset.mem_erase.mpr ⟨fun heq => hne heq.symm, Finset.mem_filter.mpr ⟨hi, hmark⟩⟩
  have hcard := Finset.card_le_card herase
  rw [Finset.card_erase_of_mem hmem] at hcard
  have hpos : 0 < (ids.filter fun i => marks.get? i = none).card :=
    Finset.card_pos.mpr ⟨id, hmem⟩
  unfold Room at h ⊢
  exact ⟨fuel - 1, by omega, by omega⟩

/-- After the search below a chain only the mark of the chain itself has changed its kind. -/
theorem Grows.done {id : ChainId} (h : marks'.Grows ((id, .visiting) :: marks)) (depth : Nat) :
    Grows ((id, .done depth) :: marks') marks := by
  constructor
  · intro i hi
    rw [get?_cons] at hi
    split at hi
    · cases hi
    · next hne =>
      have hnone := h.kept hi
      rwa [get?_cons, if_neg hne] at hnone
  · intro i hi
    rw [get?_cons] at hi
    split at hi
    · cases hi
    · next hne =>
      have hvisiting := h.visiting hi
      rwa [get?_cons, if_neg hne] at hvisiting

/-- The search below a target is below the chain, too. -/
theorem Above.below {id target : ChainId} (h : marks.Above edges id)
    (hnames : edges.Names id target) : Above ((id, .visiting) :: marks) edges target := by
  intro i hi
  rw [get?_cons] at hi
  split at hi
  · next hid =>
    subst hid
    exact .single hnames
  · exact (h i hi).tail hnames

end Marks

/-! ### The search -/

namespace Edges

variable {edges : Edges} {ids : Finset ChainId} {id : ChainId} {marks marks' : Marks}
  {result : Except ChainId (Nat × Marks)}

/-- How a search ends: with the number of jumps on some path, or at a chain that lies on a cycle. -/
inductive Outcome (edges : Edges) (ids : Finset ChainId) (id : ChainId) (marks : Marks) :
    Except ChainId (Nat × Marks) → Prop where
  | found {depth : Nat} {marks' : Marks} (takes : edges.Takes id depth)
    (remember : marks'.Remember edges.Takes) (grows : marks'.Grows marks) :
    Outcome edges ids id marks (.ok (depth, marks'))
  | cycle {i : ChainId} (mem : i ∈ ids) (back : edges.Cyclic i) :
    Outcome edges ids id marks (.error i)

theorem Outcome.of_grows (h : edges.Outcome ids id marks' result) (hgrows : marks'.Grows marks) :
    edges.Outcome ids id marks result := by
  cases h with
  | found takes remember grows => exact .found takes remember (grows.trans hgrows)
  | cycle mem back => exact .cycle mem back

/-- After the loop over its targets the depth of a chain is remembered. -/
theorem Outcome.done (h : edges.Outcome ids id ((id, .visiting) :: marks) result) :
    edges.Outcome ids id marks (do
      let (deepest, marks) ← result
      return (deepest, (id, .done deepest) :: marks)) := by
  cases h with
  | found takes remember grows => exact .found takes (remember.done takes) (grows.done _)
  | cycle mem back => exact .cycle mem back

/-- The loop over targets of a chain ends like a search of the chain, if each search does. -/
theorem outcome_foldlM {search : ChainId → Marks → Except ChainId (Nat × Marks)}
    {targets : List (ChainId × JumpKind)} (htargets : ∀ link ∈ targets, link ∈ edges id)
    (hsearch : ∀ target kind, (target, kind) ∈ targets → ∀ marks', marks'.Grows marks →
      marks'.Remember edges.Takes → edges.Outcome ids target marks' (search target marks'))
    {best : Nat} (htakes : edges.Takes id best) (hremember : marks.Remember edges.Takes) :
    edges.Outcome ids id marks (targets.foldlM (fun (best, marks) (target, kind) => do
      let (below, marks) ← search target marks
      return (max best (below + kind.depth), marks)) (best, marks)) := by
  induction targets generalizing best marks with
  | nil => exact .found htakes hremember (.refl marks)
  | cons link rest ih =>
    obtain ⟨target, kind⟩ := link
    have hfirst := hsearch target kind List.mem_cons_self marks (.refl marks) hremember
    simp only [List.foldlM_cons, bind, Except.bind]
    cases hresult : search target marks with
    | error i =>
      rw [hresult] at hfirst
      cases hfirst with
      | cycle mem back => exact .cycle mem back
    | ok found =>
      obtain ⟨below, marks₁⟩ := found
      rw [hresult] at hfirst
      cases hfirst with
      | found takes remember grows =>
        -- the rest of the loop starts with marks that have grown, and with the depth of some path
        have hbest := htakes.max (.step (htargets _ List.mem_cons_self) takes)
        refine (ih ?_ ?_ hbest remember).of_grows grows
        · exact fun link hmem => htargets link (List.mem_cons_of_mem _ hmem)
        · intro t k hmem marks' hgrows hremember'
          exact hsearch t k (List.mem_cons_of_mem _ hmem) marks' (hgrows.trans grows) hremember'

/-- So ends the search of a chain that all chains above it lead to, if the fuel is enough. -/
theorem outcome_depth (hclosed : ∀ id ∈ ids, ∀ target, edges.Names id target → target ∈ ids)
    (hid : id ∈ ids) {fuel : Nat} (hroom : marks.Room ids fuel)
    (hremember : marks.Remember edges.Takes) (habove : marks.Above edges id) :
    edges.Outcome ids id marks (edges.depth fuel id marks) := by
  -- on the fuel, since every search below a chain has less of it
  induction fuel using Nat.strongRecOn generalizing id marks with
  | ind fuel ih =>
    unfold Edges.depth
    cases hmark : marks.get? id with
    | some mark =>
      cases mark with
      | visiting => exact .cycle hid (habove id hmark)
      | done depth => exact .found (hremember id depth hmark) hremember (.refl marks)
    | none =>
      obtain ⟨rest, rfl, hroom'⟩ := hroom.visit hid hmark
      have hsearch : ∀ target kind, (target, kind) ∈ edges id → ∀ marks',
          marks'.Grows ((id, .visiting) :: marks) → marks'.Remember edges.Takes →
          edges.Outcome ids target marks' (edges.depth rest target marks') := by
        intro target kind hmem marks' hgrows hremember'
        have hnames : edges.Names id target := ⟨kind, hmem⟩
        exact ih rest (Nat.lt_succ_self rest) (hclosed id hid target hnames) (hgrows.room hroom')
          hremember' (hgrows.above (habove.below hnames))
      exact (outcome_foldlM (fun _ hmem => hmem) hsearch .here (hremember.visiting id)).done

end Edges

/-! ### Refused transactions -/

namespace Transaction

variable {tx : Transaction} {e : EngineError}

/-- The error is true of the live chains. -/
inductive Blames (tx : Transaction) : EngineError → Prop where
  /-- A rule of a chain has a target that is not live. -/
  | dangling {id target : ChainId} {chain : Chain} {rule : Rule} {kind : JumpKind}
    (live : tx.liveChain? id = some chain) (shown : rule ∈ chain.visibleRules tx.next)
    (names : (target, kind) ∈ rule.targets) (missing : tx.liveChain? target = none) :
    tx.Blames (.danglingJump chain.name rule.handle target)
  /-- A rule of a chain has a target that is a base chain. -/
  | toBase {id target : ChainId} {chain dest : Chain} {rule : Rule} {kind : JumpKind}
    (live : tx.liveChain? id = some chain) (shown : rule ∈ chain.visibleRules tx.next)
    (names : (target, kind) ∈ rule.targets) (found : tx.liveChain? target = some dest)
    (base : dest.isBase = true) :
    tx.Blames (.jumpToBaseChain chain.name rule.handle dest.name)
  /-- A chain lies on a cycle. -/
  | loop {id : ChainId} {chain : Chain} (live : tx.liveChain? id = some chain)
    (back : tx.edges.Cyclic id) : tx.Blames (.chainLoop chain.name)
  /-- The greatest number of jumps from a base chain is above the size of the jump stack. -/
  | deep {id : ChainId} {chain : Chain} {depth : Nat} (live : tx.liveChain? id = some chain)
    (base : chain.isBase = true) (deepest : tx.edges.Deepest id depth)
    (exceeds : JumpStack.capacity < depth) :
    tx.Blames (.jumpDepthExceeded chain.name depth JumpStack.capacity)

theorem blames_of_checkTargets {id : ChainId} {chain : Chain}
    (hlive : tx.liveChain? id = some chain) (h : tx.checkTargets chain = .error e) :
    tx.Blames e := by
  obtain ⟨rule, hrule, h⟩ := exists_of_forM_eq_error h
  obtain ⟨⟨target, kind⟩, htarget, h⟩ := exists_of_forM_eq_error h
  simp only [checkTarget] at h
  split at h
  · next hnone =>
    cases h
    exact .dangling hlive hrule htarget hnone
  · next dest hdest =>
    split at h
    · next hbase =>
      cases h
      exact .toBase hlive hrule htarget hdest hbase
    · cases h

/-- The ids of the live chains. -/
def liveIds (tx : Transaction) : Finset ChainId := (tx.liveChains.map (·.id)).toFinset

/-- What holds between the searches of two chains. -/
structure Between (tx : Transaction) (marks : Marks) : Prop where
  bounds : marks.Remember tx.edges.DepthLe
  attained : marks.Remember tx.edges.Takes
  room : marks.Room tx.liveIds (tx.liveChains.length + 1)
  idle : ∀ id, marks.get? id ≠ some .visiting

theorem Between.start (tx : Transaction) : tx.Between [] where
  bounds := .nil
  attained := .nil
  room := by
    have hcard : tx.liveIds.card ≤ (tx.liveChains.map (·.id)).length := List.toFinset_card_le _
    have hfilter := Finset.card_filter_le tx.liveIds fun id => Marks.get? [] id = none
    rw [List.length_map] at hcard
    unfold Marks.Room
    omega
  idle id hid := by cases hid

section search

variable {marks marks' : Marks} {chain : Chain}
  (hclosed : ∀ id ∈ tx.liveIds, ∀ target, tx.edges.Names id target → target ∈ tx.liveIds)

include hclosed

theorem Between.outcome (h : tx.Between marks) (hmem : chain.id ∈ tx.liveIds) :
    tx.edges.Outcome tx.liveIds chain.id marks
      (tx.edges.depth (tx.liveChains.length + 1) chain.id marks) :=
  Edges.outcome_depth hclosed hmem h.room h.attained fun i hi => absurd hi (h.idle i)

theorem Between.next (h : tx.Between marks) (hmem : chain.id ∈ tx.liveIds)
    (hcheck : tx.checkDepth (tx.liveChains.length + 1) marks chain = .ok marks') :
    tx.Between marks' := by
  have houtcome := h.outcome hclosed hmem
  obtain ⟨depth, hdepth, -⟩ := depth_of_checkDepth hcheck
  rw [hdepth] at houtcome
  cases houtcome with
  | found takes remember grows =>
    constructor
    · exact (Edges.depthLe_of_depth hdepth h.bounds).2
    · exact remember
    · exact grows.room h.room
    · exact fun id hid => h.idle id (grows.visiting hid)

end search

section ids

variable (hids : ∀ {id chain}, tx.table.chains.get? id = some chain → chain.id = id)

include hids

theorem mem_liveIds {id : ChainId} :
    id ∈ tx.liveIds ↔ ∃ chain, tx.liveChain? id = some chain := by
  rw [liveIds, List.mem_toFinset, List.mem_map]
  constructor
  · rintro ⟨chain, hmem, rfl⟩
    exact ⟨chain, (mem_liveChains_iff hids).mp hmem⟩
  · rintro ⟨chain, hlive⟩
    obtain rfl := id_eq_of_live hids hlive
    exact ⟨chain, (mem_liveChains_iff hids).mpr hlive, rfl⟩

/-- What is found wrong with a live chain is true. -/
theorem Between.blames {marks : Marks} {chain : Chain} (h : tx.Between marks)
    (hclosed : ∀ id ∈ tx.liveIds, ∀ target, tx.edges.Names id target → target ∈ tx.liveIds)
    (hlive : tx.liveChain? chain.id = some chain)
    (hcheck : tx.checkDepth (tx.liveChains.length + 1) marks chain = .error e) :
    tx.Blames e := by
  have houtcome := h.outcome hclosed ((mem_liveIds hids).mpr ⟨chain, hlive⟩)
  unfold checkDepth at hcheck
  split at hcheck
  · next i hdepth =>
    cases hcheck
    rw [hdepth] at houtcome
    cases houtcome with
    | cycle mem back =>
      obtain ⟨chain, hchain⟩ := (mem_liveIds hids).mp mem
      have hname : tx.nameOf i = chain.name := by
        rw [nameOf, (liveChain?_eq_some_iff.mp hchain).2]
        rfl
      rw [hname]
      exact .loop hchain back
  · next depth marks₁ hdepth =>
    rw [hdepth] at houtcome
    split at hcheck
    · next hover =>
      obtain ⟨hbase, hlt⟩ := hover
      cases hcheck
      cases houtcome with
      | found takes remember grows =>
        -- the depth found is that of a path, and no path has more jumps
        have hbound := (Edges.depthLe_of_depth hdepth h.bounds).1
        exact .deep hlive hbase ⟨takes, hbound.takes_le⟩ hlt
    · cases hcheck

/-- So is what is found wrong with one of several chains. -/
theorem Between.blames_of_foldlM {marks : Marks} {chains : List Chain} (h : tx.Between marks)
    (hclosed : ∀ id ∈ tx.liveIds, ∀ target, tx.edges.Names id target → target ∈ tx.liveIds)
    (hlive : ∀ chain ∈ chains, tx.liveChain? chain.id = some chain)
    (hloop : chains.foldlM (tx.checkDepth (tx.liveChains.length + 1)) marks = .error e) :
    tx.Blames e := by
  induction chains generalizing marks with
  | nil => cases hloop
  | cons chain rest ih =>
    have hfirst := hlive chain List.mem_cons_self
    simp only [List.foldlM_cons, bind, Except.bind] at hloop
    cases hcheck : tx.checkDepth (tx.liveChains.length + 1) marks chain with
    | error e' =>
      rw [hcheck] at hloop
      cases hloop
      exact h.blames hids hclosed hfirst hcheck
    | ok marks₁ =>
      -- the marks of one search are those that the next one starts with
      rw [hcheck] at hloop
      have hnext := h.next hclosed ((mem_liveIds hids).mpr ⟨chain, hfirst⟩) hcheck
      exact ih hnext (fun c hc => hlive c (List.mem_cons_of_mem _ hc)) hloop

/-- Every error of validation is true. -/
theorem blames_of_validate (h : tx.validate = .error e) : tx.Blames e := by
  simp only [validate, bind, Except.bind] at h
  split at h
  · next htargets =>
    cases h
    obtain ⟨chain, hmem, hcheck⟩ := exists_of_forM_eq_error htargets
    exact blames_of_checkTargets ((mem_liveChains_iff hids).mp hmem) hcheck
  · next htargets =>
    split at h
    · next hloop =>
      cases h
      -- the targets of live chains are live, so the search stays among the live chains
      have hclosed : ∀ id ∈ tx.liveIds, ∀ target, tx.edges.Names id target →
          target ∈ tx.liveIds := by
        rintro id - target ⟨kind, hlink⟩
        obtain ⟨dest, hdest, -⟩ := target_of_forM hids htargets hlink
        exact (mem_liveIds hids).mpr ⟨dest, hdest⟩
      exact (Between.start tx).blames_of_foldlM hids hclosed
        (fun chain hmem => (mem_liveChains_iff hids).mp hmem) hloop
    · cases h

end ids

/-- The chains as the transaction leaves them: every target is live and no base chain, no chain
leads back to itself, and no path from a base chain takes more jumps than the jump stack has
places. -/
structure Consistent (tx : Transaction) : Prop where
  target : ∀ {id target kind}, (target, kind) ∈ tx.edges id →
    ∃ dest, tx.liveChain? target = some dest ∧ dest.isBase = false
  acyclic : ∀ id, ¬ tx.edges.Cyclic id
  shallow : ∀ {id chain jumps}, tx.liveChain? id = some chain → chain.isBase = true →
    tx.edges.Takes id jumps → jumps ≤ JumpStack.capacity

/-- Then no error is true. -/
theorem Consistent.not_blames (h : tx.Consistent) : ¬ tx.Blames e := by
  intro hblames
  cases hblames with
  | dangling live shown names missing =>
    obtain ⟨dest, hdest, -⟩ := h.target (mem_edges_iff.mpr ⟨_, live, _, shown, names⟩)
    cases missing.symm.trans hdest
  | toBase live shown names found base =>
    obtain ⟨dest, hdest, hnot⟩ := h.target (mem_edges_iff.mpr ⟨_, live, _, shown, names⟩)
    cases found.symm.trans hdest
    cases base.symm.trans hnot
  | loop live back => exact h.acyclic _ back
  | deep live base deepest exceeds =>
    exact absurd exceeds (Nat.not_lt.mpr (h.shallow live base deepest.takes))

theorem consistent_of_sound (h : tx.live.Sound) : tx.Consistent := by
  have hdepth : ∀ {id chain}, tx.liveChain? id = some chain → ∃ depth, tx.edges.DepthLe id depth ∧
      (chain.isBase = true → depth ≤ JumpStack.capacity) := by
    intro id chain hlive
    obtain ⟨depth, hdepth, hle⟩ := h.depth (by rw [live_eq_map, hlive, Option.map_some])
    rw [edges_live] at hdepth
    refine ⟨depth, hdepth, fun hbase => hle ?_⟩
    simpa [Chain.plain, Chain.isBase, Option.isSome_iff_ne_none] using hbase
  constructor
  · intro id target kind hmem
    rw [← edges_live] at hmem
    obtain ⟨plain, hplain, hpolicy⟩ := h.target hmem
    rw [live_eq_map, Option.map_eq_some_iff] at hplain
    obtain ⟨dest, hdest, rfl⟩ := hplain
    exact ⟨dest, hdest, by simpa [Chain.plain, Chain.isBase] using hpolicy⟩
  · -- a chain that leads somewhere is live, and so its depth is bounded
    intro id hcycle
    obtain ⟨target, ⟨kind, hmem⟩, -⟩ := Relation.TransGen.head'_iff.mp hcycle
    obtain ⟨chain, hlive, -⟩ := mem_edges_iff.mp hmem
    obtain ⟨depth, hbound, -⟩ := hdepth hlive
    exact hbound.acyclic hcycle
  · intro id chain jumps hlive hbase htakes
    obtain ⟨depth, hbound, hle⟩ := hdepth hlive
    exact Nat.le_trans (hbound.takes_le htakes) (hle hbase)

section ids

variable (hids : ∀ {id chain}, tx.table.chains.get? id = some chain → chain.id = id)

include hids

/-- A transaction passes validation if its chains are consistent. -/
theorem Consistent.validate (h : tx.Consistent) : tx.validate = .ok () := by
  cases hvalid : tx.validate with
  | error e => exact absurd (blames_of_validate hids hvalid) h.not_blames
  | ok u => rfl

/-- A transaction passes validation if and only if it leaves a sound map. -/
theorem validate_eq_ok_iff : tx.validate = .ok () ↔ tx.live.Sound :=
  ⟨sound_of_validate hids, fun hsound => (consistent_of_sound hsound).validate hids⟩

end ids

end Transaction

/-! ### Commits -/

namespace System

variable {origin : Table} {tx : Transaction} {guards : List Generation}

/-- A commit is accepted if and only if the chains as the transaction leaves them are consistent.
If it is refused, the error is true of these chains. -/
theorem Reachable.commit_truthful (h : Reachable ⟨.editing origin tx, guards⟩) :
    ((∃ n, tx.commit.1 = .ok n) ↔ tx.Consistent) ∧
    ∀ e, tx.commit.1 = .error e → tx.Blames e := by
  obtain ⟨-, hopen, -⟩ := h.inv.good
  have hwf := hopen.edits.wellFormed
  constructor
  · rw [Transaction.exists_commit_iff]
    constructor
    · intro hvalid
      exact Transaction.consistent_of_sound (Transaction.sound_of_validate hwf.id_eq hvalid)
    · exact fun hconsistent => hconsistent.validate hwf.id_eq
  · intro e herror
    exact Transaction.blames_of_validate hwf.id_eq (Transaction.commit_eq_error_iff.mp herror)

/-- A chain that no other chain leads to goes to itself, while the base chain is empty. Of eighteen
chains each but the last jumps to the next one, which is one jump too many. -/
theorem Reachable.commit_truthful_loop :
    (∃ origin tx, Reachable ⟨.editing origin tx, []⟩ ∧
      tx.commit.1 = .error (.chainLoop "web") ∧ tx.Blames (.chainLoop "web") ∧ ¬ tx.Consistent) ∧
    ∃ origin tx, Reachable ⟨.editing origin tx, []⟩ ∧
      tx.commit.1 = .error (.jumpDepthExceeded "input" 17 16) ∧
      tx.Blames (.jumpDepthExceeded "input" 17 16) ∧ ¬ tx.Consistent := by
  have looped := ((create "filter" .initial 1).step .begin).applyAll
    [.addChain "input" (some .accept), .addChain "web" none,
      .placeRule ⟨1⟩ [.ofVerdict (.goto ⟨1⟩)] .back]
  have ladder := ((create "filter" .initial 1).step .begin).applyAll
    (.addChain "input" (some .accept) ::
      ["a", "b", "c", "d", "e", "f", "g", "h", "i", "j", "k", "l", "m", "n", "o", "p", "q"].map
        (.addChain · none) ++
      (List.range 17).map fun k => .placeRule ⟨k⟩ [.ofVerdict (.jump ⟨k + 1⟩)] .back)
  refine ⟨⟨_, _, looped, rfl, ?_, ?_⟩, ⟨_, _, ladder, rfl, ?_, ?_⟩⟩
  · exact looped.commit_truthful.2 _ rfl
  · intro hconsistent
    obtain ⟨n, hok⟩ := looped.commit_truthful.1.mpr hconsistent
    cases hok
  · exact ladder.commit_truthful.2 _ rfl
  · intro hconsistent
    obtain ⟨n, hok⟩ := ladder.commit_truthful.1.mpr hconsistent
    cases hok

end System

end RuleChain
