import Mathlib.Algebra.GroupWithZero.Nat
import RuleChain.Proofs.Isolation
import RuleChain.Proofs.Writes

/-! # The representation of a table

  A table keeps its chains in slots and their names in an index, and numbers its rules. What
  well-formed tables leave open is told by `Table.Orderly`:

  - no name is registered twice;
  - no two chains have rules with the same handle;
  - base chains are of the namespace of the table.

  Every write of the writer keeps this, and so does every reader. As a consequence the chains are
  listed in the order of their ids, the index has as many names as there are chains, and the
  handles of all linked rules are different.
-/

namespace RuleChain

/-! ### Lists of chains -/

/-- Where keys are different, a search for a key answers the only entry that has it. -/
theorem find?_key_eq_some_iff {α κ : Type} [DecidableEq κ] {key : α → κ} {entries : List α}
    (h : (entries.map key).Nodup) {k : κ} {entry : α} :
    entries.find? (key · = k) = some entry ↔ entry ∈ entries ∧ key entry = k := by
  constructor
  · intro hfind
    exact ⟨List.mem_of_find?_eq_some hfind, by simpa using List.find?_some hfind⟩
  · rintro ⟨hmem, rfl⟩
    have hsome : (entries.find? (key · = key entry)).isSome :=
      List.find?_isSome.mpr ⟨entry, hmem, by simp⟩
    obtain ⟨found, hfind⟩ := Option.isSome_iff_exists.mp hsome
    have hkey : key found = key entry := by simpa using List.find?_some hfind
    rw [hfind, List.inj_on_of_nodup_map h (List.mem_of_find?_eq_some hfind) hmem hkey]

theorem find?_name_eq_some_iff {entries : List (String × ChainId)}
    (h : (entries.map (·.1)).Nodup) {name : String} {id : ChainId} :
    (entries.find? (·.1 == name)).map (·.2) = some id ↔ (name, id) ∈ entries := by
  have hfind : ∀ {entry}, entries.find? (·.1 == name) = some entry ↔
      entry ∈ entries ∧ entry.1 = name := find?_key_eq_some_iff h
  rw [Option.map_eq_some_iff]
  constructor
  · rintro ⟨entry, hentry, rfl⟩
    obtain ⟨hmem, rfl⟩ := hfind.mp hentry
    exact hmem
  · intro hmem
    exact ⟨_, hfind.mpr ⟨hmem, rfl⟩, rfl⟩

namespace ChainMap

variable {m : ChainMap}

/-- If no name is registered twice, the index is the list of its answers. -/
theorem idOf?_eq_some_iff (h : (m.names.map (·.1)).Nodup) {name : String} {id : ChainId} :
    m.idOf? name = some id ↔ (name, id) ∈ m.names :=
  find?_name_eq_some_iff h

/-- The list goes through the ids one after the other. -/
theorem toList_eq_filterMap {n : Nat} (h : m.slots.length ≤ n) :
    m.toList = (List.range n).filterMap fun i => m.get? ⟨i⟩ := by
  unfold toList get?
  generalize m.slots = slots at h ⊢
  -- on the slots; when they are used up, no further id has a chain
  induction slots generalizing n with
  | nil => simp
  | cons slot rest ih =>
    obtain ⟨n, rfl⟩ : ∃ k, n = k + 1 := ⟨n - 1, by simp only [List.length_cons] at h; omega⟩
    have hrest := ih (n := n) (by simpa using h)
    rw [List.range_succ_eq_map, List.filterMap_cons, List.filterMap_cons, List.filterMap_map, hrest]
    cases slot <;> simp

/-- Chains with different ids are listed in the order of the ids. -/
theorem toList_pairwise (hids : ∀ {id chain}, m.get? id = some chain → chain.id = id) :
    m.toList.Pairwise fun c d => c.id.index < d.id.index := by
  rw [toList_eq_filterMap (Nat.le_refl _)]
  refine List.Pairwise.filterMap _ ?_ List.pairwise_lt_range
  intro i j hlt c hc d hd
  have hi : c.id.index = i := congrArg ChainId.index (hids hc)
  have hj : d.id.index = j := congrArg ChainId.index (hids hd)
  omega

end ChainMap

/-- The active rules, counted id by id. -/
theorem Table.activeRules_eq_sum {t : Table} {n : Nat} (h : t.chains.slots.length ≤ n) :
    t.activeRules =
      ((List.range n).map fun i => ((t.chains.plain t.generation).rules ⟨i⟩).length).sum := by
  unfold activeRules
  rw [ChainMap.toList_eq_filterMap h]
  -- on the ids; one that has no chain adds nothing to either side
  induction List.range n with
  | nil => rfl
  | cons i rest ih =>
    rw [List.filterMap_cons, List.map_cons, List.sum_cons, ← ih, PlainMap.rules, ChainMap.plain]
    cases hget : t.chains.get? ⟨i⟩ with
    | none => simp
    | some chain => simp [Chain.plain]

/-! ### Orderly tables -/

/-- No name is registered twice, no handle is used in two chains, and all base chains are of one
namespace. -/
structure Table.Orderly (t : Table) : Prop where
  names_nodup : (t.chains.names.map (·.1)).Nodup
  chain_eq : ∀ {i j c d handle}, t.chains.get? i = some c → t.chains.get? j = some d →
    handle ∈ c.rules.map (·.handle) → handle ∈ d.rules.map (·.handle) → i = j
  ns_eq : ∀ {id chain info}, t.chains.get? id = some chain → chain.base = some info →
    info.ns = t.ns

namespace Table

variable {t t' : Table}

theorem Orderly.create (name : String) (ns : Namespace) (shards : Nat) :
    (create name ns shards).Orderly where
  names_nodup := List.nodup_nil
  chain_eq hget := by cases hget
  ns_eq hget := by cases hget

/-- A new chain has no rule yet, and the namespace of the table. -/
theorem Orderly.addChain (h : t.Orderly) (hwf : t.WellFormed) (name : String)
    (policy : Option Policy) :
    Orderly { t with
      chains := t.chains.insert ⟨⟨t.nextChain⟩, name, [], policy.map fun policy =>
        ⟨policy, t.ns, .ofShardCount t.statsShards⟩⟩
      nextChain := t.nextChain + 1 } := by
  have hget := @ChainMap.get?_insert t.chains ⟨⟨t.nextChain⟩, name, [], policy.map fun policy =>
    ⟨policy, t.ns, .ofShardCount t.statsShards⟩⟩ hwf.slots_le
  constructor
  · -- an older entry for the name is dropped
    refine List.nodup_cons.mpr ⟨?_, h.names_nodup.sublist (List.filter_sublist.map _)⟩
    intro hin
    obtain ⟨entry, hentry, heq⟩ := List.mem_map.mp hin
    have hne := (List.mem_filter.mp hentry).2
    simp [heq] at hne
  · intro i j c d handle hc hd hhandle hhandle'
    rw [hget] at hc hd
    split at hc
    · cases hc
      cases hhandle
    · split at hd
      · cases hd
        cases hhandle'
      · exact h.chain_eq hc hd hhandle hhandle'
  · intro id chain info hchain hbase
    rw [hget] at hchain
    split at hchain
    · cases hchain
      obtain ⟨p, -, rfl⟩ := Option.map_eq_some_iff.mp hbase
      rfl
    · exact h.ns_eq hchain hbase

/-- A new rule has a handle that no chain has yet. -/
theorem Orderly.link (h : t.Orderly) (hwf : t.WellFormed) (id : ChainId) (exprs : List Expr)
    (mask : GenMask) (place : Transaction.Place) :
    Orderly { t.modifyChain id (·.mapRules (place.link ⟨t.nextHandle, exprs, mask⟩)) with
      nextHandle := t.nextHandle + 1 } := by
  -- what is found now was there before, perhaps without the new handle
  have hbefore : ∀ {i chain},
      (t.chains.modify id (·.mapRules (place.link ⟨t.nextHandle, exprs, mask⟩))).get? i =
        some chain → ∃ c, t.chains.get? i = some c ∧ chain.base = c.base ∧
        ∀ handle ∈ chain.rules.map (·.handle),
          handle ∈ c.rules.map (·.handle) ∨ (i = id ∧ handle = t.nextHandle) := by
    intro i chain hchain
    rcases ChainMap.get?_modify_cases hchain with ⟨rfl, c, hc, rfl⟩ | ⟨-, hc⟩
    · refine ⟨c, hc, rfl, ?_⟩
      intro handle hmem
      cases place <;>
        simpa [Chain.mapRules, Transaction.Place.link, or_comm, eq_comm] using hmem
    · exact ⟨chain, hc, rfl, fun _ hmem => Or.inl hmem⟩
  have hfresh : ∀ {i c}, t.chains.get? i = some c → t.nextHandle ∉ c.rules.map (·.handle) := by
    intro i c hc hmem
    obtain ⟨rule, hrule, heq⟩ := List.mem_map.mp hmem
    have hlt := hwf.handle_lt hc rule hrule
    omega
  constructor
  · exact h.names_nodup
  · intro i j c d handle hc hd hhandle hhandle'
    obtain ⟨c₀, hc₀, -, hleft⟩ := hbefore hc
    obtain ⟨d₀, hd₀, -, hright⟩ := hbefore hd
    rcases hleft handle hhandle with hleft | ⟨hi, hleft⟩ <;>
      rcases hright handle hhandle' with hright | ⟨hj, hright⟩
    · exact h.chain_eq hc₀ hd₀ hleft hright
    · exact absurd (hright ▸ hleft) (hfresh hc₀)
    · exact absurd (hleft ▸ hright) (hfresh hd₀)
    · exact hi.trans hj.symm
  · intro i chain info hchain hbase
    obtain ⟨c, hc, heq, -⟩ := hbefore hchain
    exact h.ns_eq hc (heq ▸ hbase)

theorem Orderly.shrink (h : t.Orderly) {chains : ChainMap} (hshrinks : chains.Shrinks t.chains) :
    Orderly { t with chains } := by
  constructor
  · exact h.names_nodup.sublist (hshrinks.names.map _)
  · intro i j c d handle hc hd hhandle hhandle'
    obtain ⟨c₀, hc₀, -, hleft⟩ := hshrinks.get? hc
    obtain ⟨d₀, hd₀, -, hright⟩ := hshrinks.get? hd
    exact h.chain_eq hc₀ hd₀ (hleft.subset hhandle) (hright.subset hhandle')
  · intro id chain info hchain hbase
    obtain ⟨c, hc, heq, -⟩ := hshrinks.get? hchain
    exact h.ns_eq hc (heq ▸ hbase)

theorem Orderly.write (h : t.Orderly) (hwf : t.WellFormed) (hwrite : t.Write t') : t'.Orderly := by
  cases hwrite with
  | flip => exact { h with }
  | addChain name policy => exact h.addChain hwf name policy
  | link id exprs mask place => exact h.link hwf id exprs mask place
  | shrink hshrinks => exact h.shrink hshrinks

theorem Orderly.read (h : t.Orderly) (hread : t.Read t') : t'.Orderly := by
  cases hread with
  | readers r => exact { h with }
  | record id worker length =>
    constructor
    · exact h.names_nodup
    · intro i j c d handle hc hd hhandle hhandle'
      obtain ⟨c₀, hc₀, hleft⟩ := (Table.Read.record id worker length).get? hc
      obtain ⟨d₀, hd₀, hright⟩ := (Table.Read.record id worker length).get? hd
      exact h.chain_eq hc₀ hd₀ (hleft ▸ hhandle) (hright ▸ hhandle')
    · intro i chain info hchain hbase
      rcases ChainMap.get?_modify_cases hchain with ⟨-, c, hc, rfl⟩ | ⟨-, hc⟩
      -- counting keeps the namespace
      · obtain ⟨b, hb, rfl⟩ := Option.map_eq_some_iff.mp hbase
        have hns := h.ns_eq hc hb
        exact hns
      · exact h.ns_eq hc hbase

/-- There are as many names as chains. -/
theorem Orderly.size_eq (h : t.Orderly) (hwf : t.WellFormed) :
    t.chains.size = t.chains.toList.length := by
  -- the index and the list of chains have the same names with the same ids
  have hperm : t.chains.names.Perm (t.chains.toList.map fun chain => (chain.name, chain.id)) := by
    refine (List.perm_ext_iff_of_nodup (List.Nodup.of_map _ h.names_nodup) ?_).mpr ?_
    · refine List.pairwise_map.mpr ((ChainMap.toList_pairwise hwf.id_eq).imp ?_)
      intro c d hlt heq
      have hid : c.id = d.id := congrArg Prod.snd heq
      rw [hid] at hlt
      exact Nat.lt_irrefl _ hlt
    · rintro ⟨name, id⟩
      rw [← ChainMap.idOf?_eq_some_iff h.names_nodup, hwf.idOf?_iff, List.mem_map]
      constructor
      · rintro ⟨chain, hget, rfl⟩
        exact ⟨chain, ChainMap.mem_toList.mpr ⟨id, hget⟩, by rw [hwf.id_eq hget]⟩
      · rintro ⟨chain, hmem, heq⟩
        obtain ⟨i, hget⟩ := ChainMap.mem_toList.mp hmem
        cases heq
        rw [hwf.id_eq hget]
        exact ⟨chain, hget, rfl⟩
  have hlength := hperm.length_eq
  rwa [List.length_map] at hlength

/-- The handles of all linked rules are different. -/
theorem Orderly.handles_nodup (h : t.Orderly) (hwf : t.WellFormed) :
    (t.chains.toList.flatMap fun chain => chain.rules.map (·.handle)).Nodup := by
  refine List.nodup_flatMap.mpr ⟨?_, ?_⟩
  · intro chain hmem
    obtain ⟨id, hget⟩ := ChainMap.mem_toList.mp hmem
    exact hwf.handles_nodup hget
  · refine (ChainMap.toList_pairwise hwf.id_eq).imp_of_mem ?_
    intro c d hc hd hlt handle hhandle hhandle'
    obtain ⟨i, hi⟩ := ChainMap.mem_toList.mp hc
    obtain ⟨j, hj⟩ := ChainMap.mem_toList.mp hd
    -- a common handle would make them the same chain
    have heq : i = j := h.chain_eq hi hj hhandle hhandle'
    rw [hwf.id_eq hi, hwf.id_eq hj, heq] at hlt
    exact Nat.lt_irrefl _ hlt

end Table

theorem System.Reachable.orderly {s : System} (h : s.Reachable) : s.table.Orderly := by
  induction h with
  | create name ns shards => exact .create name ns shards
  | step hreach hstep ih =>
    rcases hstep.write_or_read with hwrite | hread
    · exact ih.write hreach.inv.wellFormed hwrite
    · exact ih.read hread

end RuleChain
