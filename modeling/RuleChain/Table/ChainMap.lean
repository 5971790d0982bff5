import RuleChain.Chain

/-! # Chain maps

  The chains of a table, to be found by id and by name. The slots hold the chains in the order
  of their ids; the names lead back to the ids. A map is well formed if the two agree, which
  every operation keeps.
-/

namespace RuleChain

/-- The chains of a table. -/
structure ChainMap where
  /-- The chain with id `i`, if it exists, at position `i`. -/
  slots : List (Option Chain)
  /-- The id for each name in use. -/
  names : List (String × ChainId)
deriving DecidableEq

namespace ChainMap

def empty : ChainMap := ⟨[], []⟩

instance : Inhabited ChainMap := ⟨empty⟩

def get? (m : ChainMap) (id : ChainId) : Option Chain := m.slots[id.index]?.join

/-- The id that a name is registered for. -/
def idOf? (m : ChainMap) (name : String) : Option ChainId :=
  (m.names.find? (·.1 == name)).map (·.2)

def lookup? (m : ChainMap) (name : String) : Option Chain := (m.idOf? name).bind m.get?

/-- The chains in the order of their ids. -/
def toList (m : ChainMap) : List Chain := m.slots.filterMap fun slot => slot

/-- The number of names in use. -/
def size (m : ChainMap) : Nat := m.names.length

def isEmpty (m : ChainMap) : Bool := m.names.isEmpty

/-- Puts a chain into the slot of its id and registers its name. -/
def insert (m : ChainMap) (chain : Chain) : ChainMap where
  slots :=
    (m.slots ++ List.replicate (chain.id.index + 1 - m.slots.length) none).set chain.id.index
      (some chain)
  names := (chain.name, chain.id) :: m.names.filter (·.1 != chain.name)

/-- Empties the slot of an id and forgets the name of the chain that was there. -/
def erase (m : ChainMap) (id : ChainId) : ChainMap :=
  match m.get? id with
  | none => m
  | some chain =>
    { slots := m.slots.set id.index none, names := m.names.filter (·.1 != chain.name) }

/-- Changes the chain with an id; its id and name are to stay the same. -/
def modify (m : ChainMap) (id : ChainId) (f : Chain → Chain) : ChainMap :=
  { m with slots := m.slots.modify id.index (·.map f) }

/-! ### Lookup by id -/

theorem index_lt_of_get? {m : ChainMap} {id : ChainId} {chain : Chain}
    (h : m.get? id = some chain) : id.index < m.slots.length := by
  obtain ⟨hlt, -⟩ := List.getElem?_eq_some_iff.mp (Option.join_eq_some_iff.mp h)
  exact hlt

theorem get?_modify (m : ChainMap) (id i : ChainId) (f : Chain → Chain) :
    (m.modify id f).get? i = if i = id then (m.get? i).map f else m.get? i := by
  obtain ⟨n⟩ := id
  obtain ⟨k⟩ := i
  simp only [get?, modify, List.getElem?_modify, ChainId.mk.injEq]
  by_cases h : k = n
  · subst h
    cases m.slots[k]? with
    | none => simp
    | some slot => cases slot <;> simp
  · have : n ≠ k := fun e => h e.symm
    cases m.slots[k]? <;> simp [h, this]

/-- What is found after a change of one chain is the changed chain or another one. -/
theorem get?_modify_cases {m : ChainMap} {id i : ChainId} {f : Chain → Chain} {chain : Chain}
    (h : (m.modify id f).get? i = some chain) :
    (i = id ∧ ∃ c, m.get? i = some c ∧ chain = f c) ∨ (i ≠ id ∧ m.get? i = some chain) := by
  rw [get?_modify] at h
  split at h
  · next heq =>
    obtain ⟨c, hc, hf⟩ := Option.map_eq_some_iff.mp h
    exact Or.inl ⟨heq, c, hc, hf.symm⟩
  · next hne => exact Or.inr ⟨hne, h⟩

theorem get?_erase (m : ChainMap) (id i : ChainId) :
    (m.erase id).get? i = if i = id then none else m.get? i := by
  obtain ⟨n⟩ := id
  obtain ⟨k⟩ := i
  unfold erase
  split
  · next h => split <;> simp_all
  · simp only [get?, List.getElem?_set, ChainId.mk.injEq]
    by_cases h : k = n
    · subst h
      by_cases hk : k < m.slots.length <;> simp [hk]
    · have : n ≠ k := fun e => h e.symm
      simp [h, this]

/-- A chain that comes after all slots is found under its id. -/
theorem get?_insert {m : ChainMap} {chain : Chain} (h : m.slots.length ≤ chain.id.index)
    (i : ChainId) :
    (m.insert chain).get? i = if i = chain.id then some chain else m.get? i := by
  by_cases hi : i = chain.id
  · subst hi
    simp only [get?, insert, if_true]
    rw [List.getElem?_set_self (by simp only [List.length_append, List.length_replicate]; omega)]
    rfl
  · have hne : chain.id.index ≠ i.index := fun e => hi (congrArg ChainId.mk e.symm)
    simp only [get?, insert, if_neg hi, List.getElem?_set_ne hne]
    by_cases hlt : i.index < m.slots.length
    · rw [List.getElem?_append_left hlt]
    · rw [List.getElem?_append_right (by omega), List.getElem?_eq_none (by omega : _ ≤ i.index)]
      simp only [List.getElem?_replicate]
      split <;> rfl

theorem mem_toList {m : ChainMap} {chain : Chain} :
    chain ∈ m.toList ↔ ∃ id, m.get? id = some chain := by
  simp only [toList, List.mem_filterMap, get?, Option.join_eq_some_iff]
  constructor
  · rintro ⟨slot, hslot, rfl⟩
    obtain ⟨n, hn⟩ := List.mem_iff_getElem?.mp hslot
    exact ⟨⟨n⟩, hn⟩
  · rintro ⟨id, h⟩
    exact ⟨some chain, List.mem_of_getElem? h, rfl⟩

@[simp] theorem length_slots_modify (m : ChainMap) (id : ChainId) (f : Chain → Chain) :
    (m.modify id f).slots.length = m.slots.length := by
  simp [modify]

@[simp] theorem length_slots_erase (m : ChainMap) (id : ChainId) :
    (m.erase id).slots.length = m.slots.length := by
  unfold erase
  split <;> simp

theorem length_slots_insert (m : ChainMap) (chain : Chain) :
    (m.insert chain).slots.length = max m.slots.length (chain.id.index + 1) := by
  simp only [insert, List.length_set, List.length_append, List.length_replicate]
  omega

/-! ### Lookup by name -/

theorem find?_filter_name (names : List (String × ChainId)) (other name : String) :
    (names.filter (·.1 != other)).find? (·.1 == name) =
      if name = other then none else names.find? (·.1 == name) := by
  by_cases h : name = other
  · subst h
    simp
  · rw [if_neg h, List.find?_filter]
    congr 1
    funext p
    by_cases hp : p.1 = name <;> simp_all

theorem idOf?_insert (m : ChainMap) (chain : Chain) (name : String) :
    (m.insert chain).idOf? name = if name = chain.name then some chain.id else m.idOf? name := by
  by_cases h : name = chain.name
  · subst h
    simp [idOf?, insert]
  · have : chain.name ≠ name := fun e => h e.symm
    simp only [idOf?, insert, if_neg h]
    rw [List.find?_cons_of_neg (by simpa using this), find?_filter_name, if_neg h]

theorem idOf?_erase {m : ChainMap} {id : ChainId} {chain : Chain} (h : m.get? id = some chain)
    (name : String) :
    (m.erase id).idOf? name = if name = chain.name then none else m.idOf? name := by
  simp only [erase, h, idOf?, find?_filter_name]
  split <;> rfl

theorem erase_of_get?_eq_none {m : ChainMap} {id : ChainId} (h : m.get? id = none) :
    m.erase id = m := by
  simp only [erase, h]

end ChainMap

end RuleChain
