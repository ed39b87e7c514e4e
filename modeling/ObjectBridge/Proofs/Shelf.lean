import ObjectBridge.Finalizer
import ObjectBridge.Proofs.References

/-!
# The shelf of a binding

Which userdata represents an object is decided by three things together, the *shelf* of a binding:
the weak valued table in which userdata are kept under references, the records that userdata carry,
and the identity cache with its five maps. `Shelf.Sound` says how they belong together:

* every entry of the cache has an allocated reference of its own, under which the table has either
  nothing any more or the userdata of the entry;
* a userdata that is still there is remembered under one key only, and its record is one of that key.

A key of a borrowed or weak object tells its record only where types become weak at the root of
their line (`Registry.WeakAtRoots`): a cast down to a type that becomes weak further down turns the
record of a borrowed object into one of a weak object, under the old key.

The second half says what the steps of the bridge make of a shelf: erasing a key, releasing a
reference, storing a new userdata, changing a record, and losing userdata to the collector.
-/

namespace ObjectBridge

/-! ### Entries by key -/

namespace IdentityCache

variable (c : IdentityCache)

theorem find?_empty (k : CacheKey) : ({} : IdentityCache).find? k = none := by
  cases k <;> exact Dict.find?_empty _

theorem find?_insert (k k' : CacheKey) (e : CacheEntry) :
    (c.insert k e).find? k' = if k' = k then some e else c.find? k' := by
  cases k <;> cases k' <;> simp [insert, find?, Dict.find?_insert]

theorem find?_erase (k k' : CacheKey) :
    (c.erase k).find? k' = if k' = k then none else c.find? k' := by
  cases k <;> cases k' <;> simp [erase, find?, Dict.find?_erase]

theorem find?_erase_eq_some {k k' : CacheKey} {e : CacheEntry} :
    (c.erase k).find? k' = some e ↔ k' ≠ k ∧ c.find? k' = some e := by
  rw [find?_erase]
  by_cases hk : k' = k <;> simp [hk]

theorem entryOf_eq_some {k : CacheKey} {id : Nat} {e : CacheEntry} :
    c.entryOf k id = some e ↔ c.find? k = some e ∧ e.userdata = id := by
  rw [entryOf, Option.filter_eq_some_iff, decide_eq_true_iff]

end IdentityCache

/-- No type becomes weak below the root of its line. -/
def Registry.WeakAtRoots (r : Registry) : Prop :=
  ∀ {id d link b}, r.get? id = some d → d.super = some link → r.get? link.id = some b →
    d.isWeak = b.isWeak

/-- The keys that tell the records remembered under them. -/
def CacheKey.Faithful (r : Registry) : CacheKey → Prop
  | .borrowed _ => r.WeakAtRoots
  | .weak index => r.WeakAtRoots ∧ index < 0x100000000
  | .shared _ | .container _ _ | .owned _ => True

/-- A record that is one of a key: its userdata may represent the object of the key. -/
structure Record.Fits (r : Registry) (record : Record) (k : CacheKey) : Prop where
  not_discarded : record.discarded = false
  cacheKey : record.cacheKey r = k
  handle : ∀ {i}, k = .weak i → ∃ h, record.target = .weak h ∧ h.index = i

/-! ### Shelves -/

/-- What decides which userdata represents an object. -/
structure Shelf where
  /-- The table with weak values that keeps the userdata. -/
  table : Table
  record? : Nat → Option Record
  cache : IdentityCache

namespace Shelf

/-- The userdata that is there for a key. -/
def Remembers (s : Shelf) (k : CacheKey) (id : Nat) : Prop :=
  ∃ e, s.cache.find? k = some e ∧ e.userdata = id ∧
    s.table.get (.integer e.reference) = .userdata id

/-- Table, records and cache belong together. -/
structure Sound (r : Registry) (s : Shelf) : Prop where
  references : s.table.References
  allocated : ∀ {k e}, s.cache.find? k = some e → s.table.Allocated e.reference
  reference_inj : ∀ {k k' e e'}, s.cache.find? k = some e → s.cache.find? k' = some e' →
    e.reference = e'.reference → k = k'
  slot : ∀ {k e}, s.cache.find? k = some e → s.table.get (.integer e.reference) = .nil ∨
    s.table.get (.integer e.reference) = .userdata e.userdata
  key_unique : ∀ {k k' id}, s.Remembers k id → s.Remembers k' id → k = k'
  recorded : ∀ {k id}, s.Remembers k id → ∃ record, s.record? id = some record ∧
    (k.Faithful r → record.Fits r k)

variable {r : Registry} {s : Shelf}

/-- A cache without entries is in order, whatever the table keeps. -/
theorem sound_empty {t : Table} (ht : t.References) (record? : Nat → Option Record) :
    Sound r ⟨t, record?, {}⟩ where
  references := ht
  allocated h := by simp [IdentityCache.find?_empty] at h
  reference_inj h := by simp [IdentityCache.find?_empty] at h
  slot h := by simp [IdentityCache.find?_empty] at h
  key_unique h := by
    obtain ⟨e, he, -⟩ := h
    simp [IdentityCache.find?_empty] at he
  recorded h := by
    obtain ⟨e, he, -⟩ := h
    simp [IdentityCache.find?_empty] at he

/-- The entry of a key that remembers a userdata. -/
theorem Remembers.of_find? {k : CacheKey} {e : CacheEntry} (he : s.cache.find? k = some e)
    (hs : s.table.get (.integer e.reference) = .userdata e.userdata) :
    s.Remembers k e.userdata :=
  ⟨e, he, rfl, hs⟩

/-- A key remembers one userdata. -/
theorem Remembers.unique {k : CacheKey} {id id' : Nat} (h : s.Remembers k id)
    (h' : s.Remembers k id') : id = id' := by
  obtain ⟨e, he, rfl, -⟩ := h
  obtain ⟨e', he', rfl, -⟩ := h'
  rw [Option.some.inj (he.symm.trans he')]

/-! ### Erasing a key -/

theorem remembers_erase {k k' : CacheKey} {id : Nat} :
    Remembers { s with cache := s.cache.erase k } k' id ↔ k' ≠ k ∧ s.Remembers k' id := by
  simp only [Remembers, IdentityCache.find?_erase_eq_some]
  constructor
  · rintro ⟨e, ⟨hk, he⟩, hid, hs⟩
    exact ⟨hk, e, he, hid, hs⟩
  · rintro ⟨hk, e, he, hid, hs⟩
    exact ⟨e, ⟨hk, he⟩, hid, hs⟩

theorem Sound.erase (hs : s.Sound r) (k : CacheKey) :
    Sound r { s with cache := s.cache.erase k } where
  references := hs.references
  allocated h := hs.allocated ((s.cache.find?_erase_eq_some).1 h).2
  reference_inj h h' :=
    hs.reference_inj ((s.cache.find?_erase_eq_some).1 h).2 ((s.cache.find?_erase_eq_some).1 h').2
  slot h := hs.slot ((s.cache.find?_erase_eq_some).1 h).2
  key_unique h h' := hs.key_unique (remembers_erase.1 h).2 (remembers_erase.1 h').2
  recorded h := hs.recorded (remembers_erase.1 h).2

/-! ### Releasing a reference -/

/-- Releasing a reference that no entry has loses no userdata. -/
theorem remembers_unreference {ref : Int}
    (hfree : ∀ k e, s.cache.find? k = some e → e.reference ≠ ref) {k : CacheKey} {id : Nat} :
    Remembers { s with table := s.table.unreference ref } k id ↔ s.Remembers k id := by
  have hget : ∀ {e}, s.cache.find? k = some e →
      (s.table.unreference ref).get (.integer e.reference) =
        s.table.get (.integer e.reference) := fun {e} he ↦ by
    refine Table.get_unreference_of_ne fun hk ↦ hfree k e he ?_
    simpa using hk
  constructor
  · rintro ⟨e, he, hid, hslot⟩
    exact ⟨e, he, hid, (hget he).symm.trans hslot⟩
  · rintro ⟨e, he, hid, hslot⟩
    exact ⟨e, he, hid, (hget he).trans hslot⟩

theorem Sound.unreference (hs : s.Sound r) {ref : Int}
    (hfree : ∀ k e, s.cache.find? k = some e → e.reference ≠ ref) :
    Sound r { s with table := s.table.unreference ref } where
  references := hs.references.unreference ref
  allocated {k e} h := (Table.allocated_unreference _ _).2 ⟨hs.allocated h, hfree k e h⟩
  reference_inj h h' := hs.reference_inj h h'
  slot {k e} h := by
    have hne : Key.integer e.reference ≠ .integer ref := by simpa using hfree k e h
    show (s.table.unreference ref).get _ = _ ∨ (s.table.unreference ref).get _ = _
    rw [Table.get_unreference_of_ne hne]
    exact hs.slot h
  key_unique h h' :=
    hs.key_unique ((remembers_unreference hfree).1 h) ((remembers_unreference hfree).1 h')
  recorded h := hs.recorded ((remembers_unreference hfree).1 h)

/-- Once a key is erased, no entry has its reference. -/
theorem Sound.ne_of_erase (hs : s.Sound r) {k : CacheKey} {e : CacheEntry}
    (he : s.cache.find? k = some e) :
    ∀ k' e', (s.cache.erase k).find? k' = some e' → e'.reference ≠ e.reference := by
  intro k' e' h
  obtain ⟨hne, he'⟩ := (s.cache.find?_erase_eq_some).1 h
  exact fun hr ↦ hne (hs.reference_inj he' he hr)

/-- **A key may be erased and the reference of its entry released.** -/
theorem Sound.forget (hs : s.Sound r) {k : CacheKey} {e : CacheEntry}
    (he : s.cache.find? k = some e) :
    Sound r { s with table := s.table.unreference e.reference, cache := s.cache.erase k } :=
  (hs.erase k).unreference (hs.ne_of_erase he)

theorem Sound.remembers_forget (hs : s.Sound r) {k k' : CacheKey} {e : CacheEntry} {id : Nat}
    (he : s.cache.find? k = some e) :
    Remembers { s with table := s.table.unreference e.reference, cache := s.cache.erase k } k' id ↔
      k' ≠ k ∧ s.Remembers k' id :=
  (remembers_unreference (s := { s with cache := s.cache.erase k }) (hs.ne_of_erase he)).trans
    remembers_erase

/-! ### A new userdata -/

/-- The entry of a userdata that is about to be stored. -/
def newEntry (s : Shelf) (id : Nat) : CacheEntry :=
  ⟨s.table.nextReference, id⟩

/-- A userdata is stored in the table and given to a key. -/
def store (s : Shelf) (k : CacheKey) (id : Nat) : Shelf :=
  { s with
    table := s.table.reference (.userdata id)
    cache := s.cache.insert k (s.newEntry id) }

/-- The references of entries are not the next one. -/
theorem Sound.ne_nextReference (hs : s.Sound r) {k : CacheKey} {e : CacheEntry}
    (he : s.cache.find? k = some e) : e.reference ≠ s.table.nextReference := by
  intro h
  exact s.table.not_allocated_nextReference (h ▸ hs.allocated he)

theorem Sound.get_store (hs : s.Sound r) (k : CacheKey) (id : Nat) {k' : CacheKey} {e : CacheEntry}
    (he : s.cache.find? k' = some e) :
    (s.store k id).table.get (.integer e.reference) = s.table.get (.integer e.reference) := by
  have hne : Key.integer e.reference ≠ .integer s.table.nextReference := by
    simpa using hs.ne_nextReference he
  rw [store, Table.get_reference, if_neg hne]

theorem find?_store (k k' : CacheKey) (id : Nat) {e : CacheEntry} :
    (s.store k id).cache.find? k' = some e ↔
      (k' = k ∧ e = s.newEntry id) ∨ (k' ≠ k ∧ s.cache.find? k' = some e) := by
  rw [store, IdentityCache.find?_insert]
  by_cases hk : k' = k
  · simp [hk, eq_comm]
  · simp [hk]

/-- **A userdata that is stored is remembered under its key**, in place of the one that was. -/
theorem Sound.remembers_store (hs : s.Sound r) {k k' : CacheKey} {id id' : Nat} :
    (s.store k id).Remembers k' id' ↔
      (k' = k ∧ id' = id) ∨ (k' ≠ k ∧ s.Remembers k' id') := by
  constructor
  · rintro ⟨e, he, rfl, hslot⟩
    rcases (find?_store k k' id).1 he with ⟨rfl, rfl⟩ | ⟨hk, he⟩
    · exact Or.inl ⟨rfl, rfl⟩
    · exact Or.inr ⟨hk, e, he, rfl, (hs.get_store k id he).symm.trans hslot⟩
  · rintro (⟨rfl, rfl⟩ | ⟨hk, e, he, rfl, hslot⟩)
    · refine ⟨s.newEntry id', (find?_store _ _ _).2 (Or.inl ⟨rfl, rfl⟩), rfl, ?_⟩
      exact (Table.get_reference _ _).trans (if_pos rfl)
    · exact ⟨e, (find?_store _ _ _).2 (Or.inr ⟨hk, he⟩), rfl, (hs.get_store k id he).trans hslot⟩

/-- **A userdata that is remembered nowhere may be stored under the key of its record.** -/
theorem Sound.store (hs : s.Sound r) {k : CacheKey} {id : Nat} {record : Record}
    (hid : s.record? id = some record) (hnew : ∀ k', ¬ s.Remembers k' id)
    (hrecord : k.Faithful r → record.Fits r k) : (s.store k id).Sound r where
  references := hs.references.reference _
  allocated {k' e} h := by
    refine (hs.references.allocated_reference _ _).2 ?_
    rcases (find?_store k k' id).1 h with ⟨-, rfl⟩ | ⟨-, he⟩
    · exact Or.inl rfl
    · exact Or.inr (hs.allocated he)
  reference_inj {k₁ k₂ e₁ e₂} h₁ h₂ heq := by
    rcases (find?_store k k₁ id).1 h₁ with ⟨rfl, rfl⟩ | ⟨-, he₁⟩
    · rcases (find?_store k₁ k₂ id).1 h₂ with ⟨rfl, -⟩ | ⟨-, he₂⟩
      · rfl
      · exact absurd heq.symm (hs.ne_nextReference he₂)
    · rcases (find?_store k k₂ id).1 h₂ with ⟨rfl, rfl⟩ | ⟨-, he₂⟩
      · exact absurd heq (hs.ne_nextReference he₁)
      · exact hs.reference_inj he₁ he₂ heq
  slot {k' e} h := by
    rcases (find?_store k k' id).1 h with ⟨-, rfl⟩ | ⟨-, he⟩
    · exact Or.inr ((Table.get_reference _ _).trans (if_pos rfl))
    · rw [hs.get_store k id he]
      exact hs.slot he
  key_unique {k₁ k₂ id'} h₁ h₂ := by
    rcases hs.remembers_store.1 h₁ with ⟨rfl, rfl⟩ | ⟨-, hold₁⟩
    · rcases hs.remembers_store.1 h₂ with ⟨rfl, -⟩ | ⟨-, hold₂⟩
      · rfl
      · exact absurd hold₂ (hnew k₂)
    · rcases hs.remembers_store.1 h₂ with ⟨rfl, rfl⟩ | ⟨-, hold₂⟩
      · exact absurd hold₁ (hnew k₁)
      · exact hs.key_unique hold₁ hold₂
  recorded {k' id'} h := by
    rcases hs.remembers_store.1 h with ⟨rfl, rfl⟩ | ⟨-, h⟩
    · exact ⟨record, hid, hrecord⟩
    · exact hs.recorded h

/-! ### Records and table contents -/

/-- **Records may change** as long as the userdata that are remembered keep records of their keys. -/
theorem Sound.withRecords (hs : s.Sound r) {record? : Nat → Option Record}
    (hrecord : ∀ {k id record}, s.Remembers k id → s.record? id = some record →
      ∃ record', record? id = some record' ∧
        (k.Faithful r → record.Fits r k → record'.Fits r k)) :
    Sound r { s with record? := record? } where
  references := hs.references
  allocated h := hs.allocated h
  reference_inj h h' := hs.reference_inj h h'
  slot h := hs.slot h
  key_unique h h' := hs.key_unique h h'
  recorded h := by
    obtain ⟨record, hid, hk⟩ := hs.recorded h
    obtain ⟨record', hid', hk'⟩ := hrecord h hid
    exact ⟨record', hid', fun hf ↦ hk' hf (hk hf)⟩

/-- **The table may lose userdata**, and use other references, as long as the references of the
entries stay allocated and are given to no other userdata. -/
theorem Sound.withTable (hs : s.Sound r) {t : Table} (ht : t.References)
    (hallocated : ∀ {ref}, s.table.Allocated ref → t.Allocated ref)
    (hget : ∀ {ref}, s.table.Allocated ref →
      t.get (.integer ref) = s.table.get (.integer ref) ∨ t.get (.integer ref) = .nil) :
    Sound r { s with table := t } := by
  have hremembers : ∀ {k id}, Remembers { s with table := t } k id → s.Remembers k id := by
    rintro k id ⟨e, he, rfl, hslot⟩
    refine ⟨e, he, rfl, ?_⟩
    rcases hget (hs.allocated he) with h | h
    · exact h.symm.trans hslot
    · exact absurd (h.symm.trans hslot) (by simp)
  refine ⟨ht, fun h ↦ hallocated (hs.allocated h), fun h h' ↦ hs.reference_inj h h',
    fun {k e} h ↦ ?_, fun h h' ↦ hs.key_unique (hremembers h) (hremembers h'),
    fun h ↦ hs.recorded (hremembers h)⟩
  rcases hget (hs.allocated h) with hg | hg
  · show t.get _ = _ ∨ t.get _ = _
    rw [hg]
    exact hs.slot h
  · exact Or.inl hg

/-- A value that is stored without an entry is no concern of the shelf. -/
theorem Sound.reference (hs : s.Sound r) (v : Value) :
    Sound r { s with table := s.table.reference v } := by
  refine hs.withTable (hs.references.reference v)
    (fun h ↦ (hs.references.allocated_reference v _).2 (Or.inr h)) fun {ref} h ↦ Or.inl ?_
  rw [Table.get_reference, if_neg]
  intro hk
  rw [Key.integer.injEq] at hk
  exact s.table.not_allocated_nextReference (hk ▸ h)

end Shelf

end ObjectBridge
