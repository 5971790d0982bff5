import RuleChain.Proofs.System

/-! # What the writer writes

  Whatever the writer does, it changes the table in one of four ways:

  - the other generation becomes current;
  - a chain without rules is put under the next id;
  - a rule with the next handle is linked;
  - the map *shrinks*: chains leave it, rules are unlinked, and marks change.

  `System.Step.write_or_read` says so of every step that is not a reader's. A property that these
  four keep is therefore kept by an operation, by a rollback and by a commit, without a look at any
  of them. `Table.Descends` is the first such property: counters only grow, and a chain that stays
  remains the base chain that it was.
-/

namespace RuleChain

/-! ### Shrinking -/

/-- Chains have left the map, rules have been unlinked, and marks have been changed. -/
structure ChainMap.Shrinks (m' m : ChainMap) : Prop where
  get? : ∀ {id chain}, m'.get? id = some chain → ∃ c, m.get? id = some c ∧ chain.base = c.base ∧
    (chain.rules.map (·.handle)).Sublist (c.rules.map (·.handle))
  names : m'.names.Sublist m.names
  slots_le : m'.slots.length ≤ m.slots.length

namespace ChainMap.Shrinks

variable {m m' m'' : ChainMap} {id : ChainId}

theorem refl (m : ChainMap) : m.Shrinks m where
  get? hget := ⟨_, hget, rfl, List.Sublist.refl _⟩
  names := List.Sublist.refl _
  slots_le := Nat.le_refl _

theorem trans (h : m''.Shrinks m') (h' : m'.Shrinks m) : m''.Shrinks m where
  get? hget := by
    obtain ⟨c', hc', hbase', hrules'⟩ := h.get? hget
    obtain ⟨c, hc, hbase, hrules⟩ := h'.get? hc'
    exact ⟨c, hc, hbase'.trans hbase, hrules'.trans hrules⟩
  names := h.names.trans h'.names
  slots_le := Nat.le_trans h.slots_le h'.slots_le

theorem modify (m : ChainMap) (id : ChainId) {f : Chain → Chain}
    (hbase : ∀ c, (f c).base = c.base)
    (hrules : ∀ c, ((f c).rules.map (·.handle)).Sublist (c.rules.map (·.handle))) :
    (m.modify id f).Shrinks m where
  get? hget := by
    rcases ChainMap.get?_modify_cases hget with ⟨rfl, c, hc, rfl⟩ | ⟨-, hc⟩
    · exact ⟨c, hc, hbase c, hrules c⟩
    · exact ⟨_, hc, rfl, List.Sublist.refl _⟩
  names := List.Sublist.refl _
  slots_le := Nat.le_of_eq (m.length_slots_modify id _)

theorem modifyRule (m : ChainMap) (id : ChainId) (handle : Nat) {f : Rule → Rule}
    (hf : ∀ r, (f r).handle = r.handle) : (m.modify id (·.modifyRule handle f)).Shrinks m := by
  refine modify m id (fun _ => rfl) ?_
  intro c
  rw [Chain.handles_modifyRule hf]

theorem erase (m : ChainMap) (id : ChainId) : (m.erase id).Shrinks m where
  get? {i chain} hget := by
    rw [ChainMap.get?_erase] at hget
    split at hget
    · cases hget
    · exact ⟨chain, hget, rfl, List.Sublist.refl _⟩
  names := by
    unfold ChainMap.erase
    split
    · exact List.Sublist.refl _
    · exact List.filter_sublist
  slots_le := Nat.le_of_eq (m.length_slots_erase id)

end ChainMap.Shrinks

/-! ### Writes -/

/-- What one step of the writer does to a table. -/
inductive Table.Write (t : Table) : Table → Prop where
  | flip : t.Write t.flip
  | addChain (name : String) (policy : Option Policy) :
    t.Write { t with
      chains := t.chains.insert ⟨⟨t.nextChain⟩, name, [], policy.map fun policy =>
        ⟨policy, t.ns, .ofShardCount t.statsShards⟩⟩
      nextChain := t.nextChain + 1 }
  | link (id : ChainId) (exprs : List Expr) (mask : GenMask) (place : Transaction.Place) :
    t.Write { t.modifyChain id (·.mapRules (place.link ⟨t.nextHandle, exprs, mask⟩)) with
      nextHandle := t.nextHandle + 1 }
  | shrink {chains : ChainMap} (shrinks : chains.Shrinks t.chains) : t.Write { t with chains }

namespace Transaction

variable {tx tx' : Transaction}

theorem hideRules_shrinks (tx : Transaction) (id : ChainId) (handles : List Nat) :
    ∃ chains, chains.Shrinks tx.table.chains ∧
      (tx.hideRules id handles).table = { tx.table with chains } := by
  -- on the handles, one rule after the other
  unfold hideRules
  induction handles generalizing tx with
  | nil => exact ⟨_, .refl _, rfl⟩
  | cons handle rest ih =>
    obtain ⟨chains, hshrinks, htable⟩ := ih
      { tx with
        table := tx.table.modifyChain id (·.modifyRule handle (·.deactivate tx.next))
        log := .deleteRule id handle :: tx.log }
    exact ⟨chains, hshrinks.trans (.modifyRule _ id handle fun _ => rfl), htable⟩

theorem Edit.write (h : tx.Edit tx') : tx.table.Write tx'.table := by
  cases h with
  | keep => exact .shrink (.refl _)
  | addChain name policy free => exact .addChain _ _
  | deleteChain live empty => exact .shrink (.refl _)
  | placeRule live exprs place => exact .link _ exprs _ place
  | @hideRules id chain live handles shown =>
    obtain ⟨chains, hshrinks, htable⟩ := hideRules_shrinks tx id handles
    rw [htable]
    exact .shrink hshrinks

theorem undo_shrinks (next : Generation) (t : Table) (change : Change) :
    (undo next t change).chains.Shrinks t.chains := by
  cases change with
  | addChain id => exact .erase _ id
  | deleteChain id => exact .refl _
  | addRule id handle =>
    exact .modify _ id (fun _ => rfl) fun _ => List.filter_sublist.map _
  | deleteRule id handle => exact .modifyRule _ id handle fun _ => rfl

theorem rollback_write (tx : Transaction) : tx.table.Write tx.rollback := by
  have hshrinks : tx.rollback.chains.Shrinks tx.table.chains := by
    unfold rollback
    generalize tx.table = t
    induction tx.log generalizing t with
    | nil => exact .refl _
    | cons change rest ih => exact (ih _).trans (undo_shrinks tx.next t change)
  rw [tx.rollback_eq]
  exact .shrink hshrinks

end Transaction

/-- What every write keeps is kept by operations, one after the other. -/
theorem Transaction.applyAll_keeps {P : Table → Prop} {tx : Transaction}
    (hwrite : ∀ {t t' : Table}, P t → t.Write t' → P t') (h : P tx.table) (ops : List Operation) :
    P (tx.applyAll ops).2.table :=
  @Operation.runAll_keeps _ apply (fun tx => P tx.table)
    (fun htx happly => hwrite htx (edit_of_apply happly).write) tx h ops

theorem Finalization.Step.write {f f' : Finalization} (h : f.Step f') :
    f.table.Write f'.table := by
  cases h with
  | sweep mem => exact .shrink (.modify _ _ (fun _ => rfl) fun _ => List.filter_sublist.map _)
  | @finalize t old change todo sweeps =>
    cases change with
    | addChain id => exact .shrink (.refl _)
    | deleteChain id => exact .shrink (.erase _ id)
    | addRule id handle => exact .shrink (.modifyRule _ id handle fun _ => rfl)
    | deleteRule id handle => exact .shrink (.modifyRule _ id handle fun _ => rfl)

/-- What every write keeps is kept by a commit, accepted or not. -/
theorem Transaction.commit_keeps {P : Table → Prop} {tx : Transaction}
    (hwrite : ∀ {t t' : Table}, P t → t.Write t' → P t') (h : P tx.table) :
    P tx.commit.2.1 := by
  unfold commit
  cases hpublish : tx.publish? with
  | error e => exact hwrite h tx.rollback_write
  | ok p =>
    obtain ⟨-, rfl⟩ := publish?_eq_ok_iff.mp hpublish
    exact (Finalization.steps_finish tx.publish).keeps (fun hf first => hwrite hf first.write)
      (hwrite h .flip)

/-- Every step is a write of the writer or something that a reader does. -/
theorem System.Step.write_or_read {s s' : System} (h : s.Step s') :
    s.table.Write s'.table ∨ s.table.Read s'.table := by
  cases h with
  | begin => exact Or.inl (.shrink (.refl _))
  | operate applied => exact Or.inl (Transaction.edit_of_apply applied).write
  | abort => exact Or.inl (Transaction.rollback_write _)
  | reject refused => exact Or.inl (Transaction.rollback_write _)
  | flip accepted =>
    obtain ⟨-, rfl⟩ := Transaction.publish?_eq_ok_iff.mp accepted
    exact Or.inl .flip
  | drain quiet => exact Or.inl (.shrink (.refl _))
  | write step => exact Or.inl step.write
  | done isDone => exact Or.inl (.shrink (.refl _))
  | enter =>
    unfold table
    rw [Moment.table_withTable]
    exact Or.inr (.readers _)
  | leave held =>
    unfold table
    rw [Moment.table_withTable]
    exact Or.inr (.readers _)
  | record id worker length =>
    unfold table
    rw [Moment.table_withTable]
    exact Or.inr (.record id worker length)

/-! ### What all writes keep -/

namespace Table

variable {α : Type} {f : BaseChain → α} {t₀ t t' : Table}

/-- The writer does not touch the number of readers. -/
theorem Write.readers_eq (h : t.Write t') : t'.readers = t.readers := by
  cases h <;> rfl

theorem Write.name_eq (h : t.Write t') : t'.name = t.name := by
  cases h <;> rfl

theorem Write.ns_eq (h : t.Write t') : t'.ns = t.ns := by
  cases h <;> rfl

/-- The table `t` has come from `t₀`: its counters have only grown, and of a base chain that was
there before, `f` is still the same. -/
structure Descends (f : BaseChain → α) (t₀ t : Table) : Prop where
  name_eq : t.name = t₀.name
  ns_eq : t.ns = t₀.ns
  shards_eq : t.statsShards = t₀.statsShards
  slots_le : t.chains.slots.length ≤ t.nextChain
  nextHandle_le : t₀.nextHandle ≤ t.nextHandle
  nextChain_le : t₀.nextChain ≤ t.nextChain
  base_eq : ∀ {id chain chain'}, t₀.chains.get? id = some chain → t.chains.get? id = some chain' →
    chain'.base.map f = chain.base.map f

theorem Descends.refl (f : BaseChain → α) (h : t.WellFormed) : Descends f t t where
  name_eq := rfl
  ns_eq := rfl
  shards_eq := rfl
  slots_le := h.slots_le
  nextHandle_le := Nat.le_refl _
  nextChain_le := Nat.le_refl _
  base_eq hget hget' := by
    rw [hget] at hget'
    cases hget'
    rfl

theorem Descends.write (h : Descends f t₀ t) (h₀ : t₀.WellFormed) (hwrite : t.Write t') :
    Descends f t₀ t' := by
  cases hwrite with
  | flip => exact { h with }
  | addChain name policy =>
    refine { h with
      slots_le := ?_
      nextChain_le := Nat.le_succ_of_le h.nextChain_le
      base_eq := fun {id chain chain'} hget hget' => ?_ }
    · have hle := h.slots_le
      simp only [ChainMap.length_slots_insert]
      omega
    · rw [ChainMap.get?_insert h.slots_le] at hget'
      split at hget'
      · next heq =>
        -- the id of a chain that was there before is below the counter
        have hlt := h₀.index_lt hget
        have hle := h.nextChain_le
        rw [heq] at hlt
        exact absurd hlt (Nat.not_lt.mpr hle)
      · exact h.base_eq hget hget'
  | link id exprs mask place =>
    refine { h with
      slots_le := ?_
      nextHandle_le := Nat.le_succ_of_le h.nextHandle_le
      base_eq := fun hget hget' => ?_ }
    · simpa [modifyChain] using h.slots_le
    · rcases ChainMap.get?_modify_cases hget' with ⟨-, c, hc, rfl⟩ | ⟨-, hc⟩
      -- rules are linked to a chain, its base stays
      · have hbase := h.base_eq hget hc
        exact hbase
      · exact h.base_eq hget hc
  | shrink shrinks =>
    refine { h with
      slots_le := Nat.le_trans shrinks.slots_le h.slots_le
      base_eq := fun hget hget' => ?_ }
    obtain ⟨c, hc, hbase, -⟩ := shrinks.get? hget'
    rw [hbase]
    exact h.base_eq hget hc

/-- Readers only change statistics. -/
theorem Descends.read (h : Descends f t₀ t) (hread : t.Read t')
    (hf : ∀ info stats, f { info with stats } = f info) : Descends f t₀ t' := by
  cases hread with
  | readers r => exact { h with }
  | record id worker length =>
    refine { h with
      slots_le := ?_
      base_eq := fun hget hget' => ?_ }
    · simpa [modifyChain] using h.slots_le
    · rcases ChainMap.get?_modify_cases hget' with ⟨rfl, c, hc, rfl⟩ | ⟨-, hc⟩
      · rw [← h.base_eq hget hc]
        cases hinfo : c.base <;> simp [Chain.record, hinfo, hf]
      · exact h.base_eq hget hc

end Table

end RuleChain
