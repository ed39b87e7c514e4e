import ObjectBridge.Proofs.Upkeep

/-!
# Single changes

The steps of the bridge are made of few changes: to the stack, to the host, a new userdata, a userdata
stored in the weak valued table, an entry erased and its reference released, a record changed. For
each of them there is a lemma here that it is a change the bridge keeps up with (`World.Leads`). Two
of them leave the shelf in order only together, storing a userdata and giving it to a key
(`Leads.store`), and so do erasing a key and releasing the reference of its entry (`Leads.forget`).
-/

namespace ObjectBridge

/-! ### Records of a machine -/

namespace Machine

variable (m : Machine)

theorem record?_modifyRecord (id id' : Nat) (f : Record → Record) :
    (m.modifyRecord id f).record? id' =
      if id' = id then (m.record? id').map f else m.record? id' := by
  rw [record?, modifyRecord, Heap.modifyUserdata, SlotStore.get?_modify, record?]
  by_cases hid : id = id'
  · subst hid
    simp only [if_pos]
    cases hu : m.heap.userdata.get? id with
    | none => rfl
    | some u =>
      obtain ⟨content, mt, value, finalized⟩ := u
      cases content <;> rfl
  · have hid' : id' ≠ id := fun e ↦ hid e.symm
    simp only [hid, hid', if_false]

theorem record?_createUserdata (hm : m.heap.userdata.Sound) (u : Userdata) (id : Nat) :
    (m.createUserdata u).2.record? id =
      if id = (m.createUserdata u).1 then u.record? else m.record? id := by
  show ((m.heap.userdata.insert u).get? id).bind _ = _
  rw [hm.get?_insert]
  split
  · rename_i hid
    exact (if_pos hid).symm
  · rename_i hid
    exact (if_neg hid).symm

theorem record?_newId (hm : m.heap.userdata.Sound) (u : Userdata) :
    m.record? (m.createUserdata u).1 = none := by
  rw [record?]
  have h := hm.get?_nextId
  show (m.heap.userdata.get? m.heap.userdata.nextId).bind _ = none
  rw [h]
  rfl

end Machine

/-- What follows on keeps a binding sound. -/
theorem Binding.Sound.follows {R : Realm} {b : Binding} {h h' : Host}
    (hb : b.Sound R h) (hf : Host.Follows R h h')
    (hd : (h'.weakTable? b.domain).isSome = true) : b.Sound R h' where
  registry := hb.registry
  isSome_weakTable? := hd
  userdata := hb.userdata
  proper hr := hb.proper hr
  serial_lt hr ht := by
    obtain ⟨t', ht'⟩ := Option.isSome_iff_exists.1 hd
    obtain ⟨t, htd, hft⟩ := hf _ _ ht'
    have hlt := hb.serial_lt hr ht
    rw [Host.weakTable_of_some htd] at hlt
    rw [Host.weakTable_of_some ht']
    exact Nat.lt_of_lt_of_le hlt hft.nextSerial_le
  cacheTable := hb.cacheTable
  link := hb.link
  pinned_ne_cache := hb.pinned_ne_cache
  pinned_ne_registry := hb.pinned_ne_registry
  shelf := hb.shelf

namespace World

variable {R : Realm} {K : Set CacheKey} {w w' : World}

/-- The table of the cache. -/
def shelfTable (w : World) : Table :=
  w.binding.shelf.table

theorem Sound.shelf (hw : w.Sound R) : w.binding.shelf.Sound w.binding.registry :=
  hw.binding.shelf

theorem Sound.cacheTable (hw : w.Sound R) :
    w.binding.machine.heap.tables.get? w.binding.tables.cache = some w.shelfTable ∧
      w.shelfTable.weakValues = true := by
  obtain ⟨t, ht, hweak⟩ := hw.binding.cacheTable
  have htable : w.shelfTable = t := by
    show (w.binding.machine.heap.tables.get? w.binding.tables.cache).getD {} = t
    rw [ht]
    rfl
  rw [htable]
  exact ⟨ht, hweak⟩

/-- The table of the cache is not the registry of the machine: its values are weak. -/
theorem Sound.cache_ne_registry (hw : w.Sound R) :
    w.binding.tables.cache ≠ w.binding.machine.registry := by
  intro h
  obtain ⟨t, k, ht, hstrong, -⟩ := hw.binding.link
  obtain ⟨hcache, hweak⟩ := hw.cacheTable
  rw [← h, hcache] at ht
  rw [Option.some.inj ht, hstrong] at hweak
  exact absurd hweak (by simp)

theorem Sound.not_remembers_of_record?_eq_none (hw : w.Sound R) {id : Nat}
    (hn : w.record? id = none) (k : CacheKey) : ¬ w.Remembers k id := by
  intro h
  obtain ⟨r, hr, -⟩ := hw.shelf.recorded h
  have hr' : w.record? id = some r := hr
  rw [hn] at hr'
  exact absurd hr' (by simp)

/-- A userdata is forsaken as long as neither its record nor the table of weak objects changes. -/
theorem Forsaken.congr {id : Nat} (h : w.Forsaken id) (hr : w'.record? id = w.record? id)
    (ht : w'.weakTable = w.weakTable) : w'.Forsaken id := by
  obtain ⟨r, hid, hgone⟩ := h
  exact ⟨r, hr.trans hid, by rwa [ht]⟩

/-! ### Changes of the host -/

/-- **A change of the host** leaves records and shelf alone. -/
theorem Leads.host (hw : w.Sound R) {h : Host} (he : Host.Evolves R w.host h) :
    w.Leads R K { w with host := h } where
  sound := ⟨he.anchored hw.anchored, hw.binding.follows (he.follows hw.anchored)
    (he.isSome_weakTable? _ hw.binding.isSome_weakTable?)⟩
  follows := he.follows hw.anchored
  isSome_weakTable? := he.isSome_weakTable?
  registry := rfl
  domain := rfl
  settings := rfl
  ages {_ r} hr := ⟨r, hr, Record.Ages.refl r⟩
  remembers _ _ _ _ _ hm := Or.inl hm
  absent _ ha := ha

/-! ### Changes of machine and cache -/

/-- The world with another machine and another identity cache. -/
def withBinding (w : World) (m : Machine) (c : IdentityCache) : World :=
  { w with binding := { w.binding with machine := m, cache := c } }

/-- The shelf of `withBinding`. -/
def shelfWith (w : World) (m : Machine) (c : IdentityCache) : Shelf :=
  ⟨(m.heap.tables.get? w.binding.tables.cache).getD {}, m.record?, c⟩

/-- What a change of machine and cache has to respect, the shelf and its keys apart. -/
structure Mends (R : Realm) (w : World) (m : Machine) : Prop where
  registry : m.registry = w.binding.machine.registry
  registryTable : m.heap.tables.get? w.binding.machine.registry =
    w.binding.machine.heap.tables.get? w.binding.machine.registry
  cacheTable : ∃ t, m.heap.tables.get? w.binding.tables.cache = some t ∧ t.weakValues = true
  userdata : m.heap.userdata.Sound
  /-- A record is one that was there, or one that is in order. -/
  record : ∀ {id r}, m.record? id = some r → w.record? id = some r ∨
    (r.Proper w.binding.registry ∧
      ∀ handle, r.target = .weak handle → handle.serial < w.weakTable.nextSerial)
  ages : ∀ {id r}, w.record? id = some r →
    ∃ r', m.record? id = some r' ∧ r.Ages w.binding.registry r'

theorem Mends.sound {m : Machine} {c : IdentityCache} (hm : w.Mends R m) (hw : w.Sound R)
    (hshelf : (w.shelfWith m c).Sound w.binding.registry) : (w.withBinding m c).Sound R where
  anchored := hw.anchored
  binding := by
    obtain ⟨t, k, ht, hstrong, hk⟩ := hw.binding.link
    refine ⟨hw.binding.registry, hw.binding.isSome_weakTable?, hm.userdata, fun {id r} hr ↦ ?_,
      fun {id r handle} hr ht ↦ ?_, hm.cacheTable, ⟨t, k, ?_, hstrong, hk⟩,
      hw.binding.pinned_ne_cache, ?_, hshelf⟩
    · rcases hm.record hr with h | ⟨h, -⟩
      · exact hw.binding.proper h
      · exact h
    · rcases hm.record hr with h | ⟨-, h⟩
      · exact hw.binding.serial_lt h ht
      · exact h handle ht
    · show m.heap.tables.get? m.registry = some t
      rw [hm.registry, hm.registryTable, ht]
    · show w.binding.tables.pinned ≠ m.registry
      rw [hm.registry]
      exact hw.binding.pinned_ne_registry

/-- A change of machine and cache is one the bridge keeps up with. -/
theorem Mends.leads {m : Machine} {c : IdentityCache} (hm : w.Mends R m) (hw : w.Sound R)
    (hshelf : (w.shelfWith m c).Sound w.binding.registry)
    (hremembers : ∀ {k id}, k ∉ K → w.Remembers k id → (w.shelfWith m c).Remembers k id ∨
      (w.binding.registry.WeakAtRoots → k.Faithful w.binding.registry →
        (w.withBinding m c).Forsaken id))
    (habsent : ∀ {root}, .owned root ∉ K → w.binding.cache.find? (.owned root) = none →
      c.find? (.owned root) = none) : w.Leads R K (w.withBinding m c) where
  sound := hm.sound hw hshelf
  follows := Host.Follows.refl _
  isSome_weakTable? _ h := h
  registry := rfl
  domain := rfl
  settings := rfl
  ages hr := hm.ages hr
  remembers hroots {_ _} hk hf h := (hremembers hk h).imp_right fun hgone ↦ hgone hroots hf
  absent hk ha := habsent hk ha

/-- Only the table of the cache changes. -/
theorem Sound.mends_cacheTable (hw : w.Sound R) {m : Machine} {f : Table → Table}
    (hregistry : m.registry = w.binding.machine.registry)
    (hheap : m.heap = w.binding.machine.heap.modifyTable w.binding.tables.cache f)
    (hweak : ∀ t, (f t).weakValues = t.weakValues) :
    w.Mends R m ∧ m.record? = w.record? ∧
      m.heap.tables.get? w.binding.tables.cache = some (f w.shelfTable) := by
  obtain ⟨hcache, hvalues⟩ := hw.cacheTable
  have hrecord : m.record? = w.record? := by
    funext id
    show (m.heap.userdata.get? id).bind _ = _
    rw [hheap]
    rfl
  have htable : m.heap.tables.get? w.binding.tables.cache = some (f w.shelfTable) := by
    rw [hheap, Heap.modifyTable, SlotStore.get?_modify, if_pos rfl, hcache]
    rfl
  refine ⟨⟨hregistry, ?_, ⟨_, htable, (hweak _).trans hvalues⟩, ?_, fun {id r} h ↦ Or.inl ?_,
    fun {id r} h ↦ ⟨r, ?_, Record.Ages.refl r⟩⟩, hrecord, htable⟩
  · rw [hheap, Heap.modifyTable, SlotStore.get?_modify, if_neg hw.cache_ne_registry]
  · rw [hheap]
    exact hw.binding.userdata
  · rwa [hrecord] at h
  · rwa [hrecord]

theorem shelfWith_eq {m : Machine} {t : Table} (c : IdentityCache)
    (hrecord : m.record? = w.record?) (htable : m.heap.tables.get? w.binding.tables.cache = some t) :
    w.shelfWith m c = ⟨t, w.record?, c⟩ := by
  rw [shelfWith, hrecord, htable]
  rfl

/-- The world in which the key of an entry is erased and the reference of the entry released. -/
def forgetting (w : World) (k : CacheKey) (e : CacheEntry) : World :=
  w.withBinding (w.binding.machine.unreference w.binding.tables.cache e.reference)
    (w.binding.cache.erase k)

theorem Sound.mends_unreference (hw : w.Sound R) (ref : Int) (c : IdentityCache) :
    w.Mends R (w.binding.machine.unreference w.binding.tables.cache ref) ∧
      w.shelfWith (w.binding.machine.unreference w.binding.tables.cache ref) c =
        ⟨w.shelfTable.unreference ref, w.record?, c⟩ := by
  obtain ⟨hm, hrecord, htable⟩ := hw.mends_cacheTable
    (m := w.binding.machine.unreference w.binding.tables.cache ref) rfl rfl
    fun t ↦ t.weakValues_unreference ref
  exact ⟨hm, shelfWith_eq c hrecord htable⟩

theorem Sound.remembers_forgetting (hw : w.Sound R) {k k' : CacheKey} {e : CacheEntry} {id : Nat}
    (he : w.binding.cache.find? k = some e) :
    (w.forgetting k e).Remembers k' id ↔ k' ≠ k ∧ w.Remembers k' id := by
  have hshelf : (w.forgetting k e).binding.shelf = _ :=
    (hw.mends_unreference e.reference (w.binding.cache.erase k)).2
  rw [Remembers, hshelf]
  exact hw.shelf.remembers_forget he

/-- **An entry is erased and its reference released.** -/
theorem Leads.forget (hw : w.Sound R) {k : CacheKey} {e : CacheEntry}
    (he : w.binding.cache.find? k = some e)
    (hk : ∀ id, w.Remembers k id → k ∈ K ∨
      (w.binding.registry.WeakAtRoots → k.Faithful w.binding.registry → w.Forsaken id)) :
    w.Leads R K (w.forgetting k e) := by
  obtain ⟨hm, hshelf⟩ := hw.mends_unreference e.reference (w.binding.cache.erase k)
  refine hm.leads hw ?_ (fun {k' id} hk' hr ↦ ?_) fun {root} _ ha ↦ ?_
  · rw [hshelf]
    exact hw.shelf.forget he
  · by_cases hne : k' = k
    · subst hne
      rcases hk id hr with h | h
      · exact absurd h hk'
      · exact Or.inr fun hroots hf ↦ (h hroots hf).congr rfl rfl
    · exact Or.inl ((hw.remembers_forgetting he).2 ⟨hne, hr⟩)
  · rw [IdentityCache.find?_erase]
    split
    · rfl
    · exact ha

/-- The world in which a reference is released. -/
def releasing (w : World) (ref : Int) : World :=
  w.withBinding (w.binding.machine.unreference w.binding.tables.cache ref) w.binding.cache

/-- Releasing a reference that no entry has loses no userdata. -/
theorem Sound.remembers_releasing (hw : w.Sound R) {ref : Int}
    (hfree : ∀ k e, w.binding.cache.find? k = some e → e.reference ≠ ref) {k : CacheKey}
    {id : Nat} : (w.releasing ref).Remembers k id ↔ w.Remembers k id := by
  have hshelf : (w.releasing ref).binding.shelf = _ :=
    (hw.mends_unreference ref w.binding.cache).2
  rw [Remembers, hshelf]
  exact Shelf.remembers_unreference hfree

/-- A reference is released that no entry has. -/
theorem Leads.release (hw : w.Sound R) {ref : Int}
    (hfree : ∀ k e, w.binding.cache.find? k = some e → e.reference ≠ ref) :
    w.Leads R K (w.releasing ref) := by
  obtain ⟨hm, hshelf⟩ := hw.mends_unreference ref w.binding.cache
  refine hm.leads hw ?_ (fun {k id} _ hr ↦ Or.inl ((hw.remembers_releasing hfree).2 hr))
    fun {root} _ ha ↦ ha
  rw [hshelf]
  exact hw.shelf.unreference hfree

/-- A machine whose weak valued table keeps one more userdata. -/
def storing (w : World) (id : Nat) : Machine :=
  { w.binding.machine with
    heap := w.binding.machine.heap.modifyTable w.binding.tables.cache fun t ↦
      t.reference (.userdata id) }

theorem Sound.reference_eq (hw : w.Sound R) (id : Nat) :
    w.binding.machine.reference w.binding.tables.cache (.userdata id) =
      ((w.shelfTable.nextReference : Int), w.storing id) := by
  obtain ⟨hcache, -⟩ := hw.cacheTable
  simp only [Machine.reference, hcache]
  rfl

theorem Sound.mends_storing (hw : w.Sound R) (id : Nat) (c : IdentityCache) :
    w.Mends R (w.storing id) ∧ w.shelfWith (w.storing id) c =
      ⟨w.shelfTable.reference (.userdata id), w.record?, c⟩ := by
  obtain ⟨hm, hrecord, htable⟩ := hw.mends_cacheTable (m := w.storing id) rfl rfl
    fun t ↦ t.weakValues_reference (.userdata id)
  exact ⟨hm, shelfWith_eq c hrecord htable⟩

/-- Storing a userdata without an entry makes no key remember it. -/
theorem Sound.remembers_storing (hw : w.Sound R) {id : Nat} {k : CacheKey} {id' : Nat} :
    (w.withBinding (w.storing id) w.binding.cache).Remembers k id' ↔ w.Remembers k id' := by
  have hshelf : (w.withBinding (w.storing id) w.binding.cache).binding.shelf = _ :=
    (hw.mends_storing id w.binding.cache).2
  rw [Remembers, hshelf]
  constructor
  · rintro ⟨e, he, hid, hslot⟩
    exact ⟨e, he, hid, (hw.shelf.get_store k id he).symm.trans hslot⟩
  · rintro ⟨e, he, hid, hslot⟩
    exact ⟨e, he, hid, (hw.shelf.get_store k id he).trans hslot⟩

/-- A userdata is stored without being given to a key. -/
theorem Leads.storing (hw : w.Sound R) (id : Nat) :
    w.Leads R K (w.withBinding (w.storing id) w.binding.cache) := by
  obtain ⟨hm, hshelf⟩ := hw.mends_storing id w.binding.cache
  refine hm.leads hw ?_ (fun {k id'} _ hr ↦ Or.inl (hw.remembers_storing.2 hr)) fun {root} _ ha ↦ ha
  rw [hshelf]
  exact hw.shelf.reference _

/-- The world in which a userdata is stored and given to a key. -/
def stored (w : World) (k : CacheKey) (id : Nat) : World :=
  w.withBinding (w.storing id) (w.binding.cache.insert k ⟨w.shelfTable.nextReference, id⟩)

theorem Sound.remembers_stored (hw : w.Sound R) {k k' : CacheKey} {id id' : Nat} :
    (w.stored k id).Remembers k' id' ↔
      (k' = k ∧ id' = id) ∨ (k' ≠ k ∧ w.Remembers k' id') := by
  have hshelf : (w.stored k id).binding.shelf = _ := (hw.mends_storing id _).2
  rw [Remembers, hshelf]
  exact hw.shelf.remembers_store

/-- **A userdata is stored and given to a key.** -/
theorem Leads.store (hw : w.Sound R) {k : CacheKey} {id : Nat} {r : Record}
    (hid : w.record? id = some r) (hnew : ∀ k', ¬ w.Remembers k' id)
    (hfits : k.Faithful w.binding.registry → r.Fits w.binding.registry k)
    (hk : ∀ id', w.Remembers k id' → k ∈ K) (howned : ∀ root, k = .owned root → k ∈ K) :
    w.Leads R K (w.stored k id) := by
  obtain ⟨hm, hshelf⟩ := hw.mends_storing id
    (w.binding.cache.insert k ⟨w.shelfTable.nextReference, id⟩)
  refine hm.leads hw ?_ (fun {k' id'} hk' hr ↦ Or.inl ?_) fun {root} hroot ha ↦ ?_
  · rw [hshelf]
    exact hw.shelf.store hid hnew hfits
  · have hne : k' ≠ k := fun e ↦ hk' (e ▸ hk id' (e ▸ hr))
    exact hw.remembers_stored.2 (Or.inr ⟨hne, hr⟩)
  · rw [IdentityCache.find?_insert, if_neg]
    · exact ha
    · intro h
      exact hroot (h ▸ howned root h.symm)

/-! ### Changes of userdata -/

/-- Tables and roots are left alone. -/
structure SameTables (w : World) (m : Machine) : Prop where
  registry : m.registry = w.binding.machine.registry
  tables : m.heap.tables = w.binding.machine.heap.tables

/-- **A new userdata** is remembered nowhere, and no other record changes. -/
theorem Leads.create (hw : w.Sound R) {u : Userdata}
    (hu : ∀ r, u.record? = some r → r.Proper w.binding.registry ∧
      ∀ handle, r.target = .weak handle → handle.serial < w.weakTable.nextSerial) :
    w.Leads R K (w.withBinding (w.binding.machine.createUserdata u).2 w.binding.cache) := by
  have hnew := w.binding.machine.record?_newId hw.binding.userdata u
  have hrecord := w.binding.machine.record?_createUserdata hw.binding.userdata u
  have hold : ∀ {id r}, w.record? id = some r →
      (w.binding.machine.createUserdata u).2.record? id = some r := fun {id r} h ↦ by
    rw [hrecord, if_neg]
    · exact h
    · rintro rfl
      have h' : w.binding.machine.record? _ = some r := h
      rw [hnew] at h'
      exact absurd h' (by simp)
  have hm : w.Mends R (w.binding.machine.createUserdata u).2 := by
    refine ⟨rfl, rfl, hw.binding.cacheTable, hw.binding.userdata.insert u, fun {id r} h ↦ ?_,
      fun {id r} h ↦ ⟨r, hold h, Record.Ages.refl r⟩⟩
    rw [hrecord] at h
    split at h
    · exact Or.inr (hu r h)
    · exact Or.inl h
  refine hm.leads hw ?_ (fun {k id} _ hr ↦ Or.inl hr) fun {root} _ ha ↦ ha
  exact hw.shelf.withRecords fun {k id r} _ hr ↦ ⟨r, hold hr, fun _ hf ↦ hf⟩

/-- **The record of one userdata changes.** -/
theorem Leads.alter (hw : w.Sound R) {m : Machine} {id : Nat} {r r' : Record}
    (hm : w.SameTables m) (huserdata : m.heap.userdata.Sound) (hid : w.record? id = some r)
    (hrecord : ∀ id', m.record? id' = if id' = id then some r' else w.record? id')
    (hages : r.Ages w.binding.registry r') (hproper : r'.Proper w.binding.registry)
    (hserial : ∀ handle, r'.target = .weak handle → handle.serial < w.weakTable.nextSerial)
    (hfits : ∀ k, w.Remembers k id → k.Faithful w.binding.registry →
      r.Fits w.binding.registry k → r'.Fits w.binding.registry k) :
    w.Leads R K (w.withBinding m w.binding.cache) := by
  have htables := hm.tables
  have hmends : w.Mends R m := by
    refine ⟨hm.registry, by rw [htables], ?_, huserdata, fun {id' x} h ↦ ?_, fun {id' x} h ↦ ?_⟩
    · rw [htables]
      exact hw.binding.cacheTable
    · rw [hrecord] at h
      split at h
      · obtain rfl := Option.some.inj h
        exact Or.inr ⟨hproper, hserial⟩
      · exact Or.inl h
    · rw [hrecord]
      split
      · rename_i heq
        subst heq
        obtain rfl := Option.some.inj (hid.symm.trans h)
        exact ⟨r', rfl, hages⟩
      · exact ⟨x, h, Record.Ages.refl x⟩
  have hshelf : w.shelfWith m w.binding.cache =
      { w.binding.shelf with record? := m.record? } := by
    rw [shelfWith, htables]
    rfl
  refine hmends.leads hw ?_ (fun {k id'} _ hr ↦ Or.inl ?_) fun {root} _ ha ↦ ha
  · rw [hshelf]
    refine hw.shelf.withRecords fun {k id' x} hr hx ↦ ?_
    rw [hrecord]
    split
    · rename_i heq
      subst heq
      have hx' : w.record? id' = some x := hx
      obtain rfl := Option.some.inj (hid.symm.trans hx')
      exact ⟨r', rfl, hfits k hr⟩
    · exact ⟨x, hx, fun _ hf ↦ hf⟩
  · rw [hshelf]
    exact hr

/-- A key need not be given away if what it remembered is forsaken. -/
theorem Leads.restrict {k : CacheKey} (h : w.Leads R (insert k K) w')
    (hforsaken : ∀ id, w.Remembers k id → w'.Forsaken id)
    (hk : w'.binding.cache.find? k = none) : w.Leads R K w' where
  sound := h.sound
  follows := h.follows
  isSome_weakTable? := h.isSome_weakTable?
  registry := h.registry
  domain := h.domain
  settings := h.settings
  ages hr := h.ages hr
  remembers hroots {k' id} hk' hf hr := by
    by_cases hne : k' = k
    · subst hne
      exact Or.inr (hforsaken id hr)
    · refine h.remembers hroots (fun hm ↦ ?_) hf hr
      exact (Set.mem_insert_iff.1 hm).elim hne hk'
  absent {root} hk' ha := by
    by_cases hne : CacheKey.owned root = k
    · rw [hne]
      exact hk
    · refine h.absent (fun hm ↦ ?_) ha
      exact (Set.mem_insert_iff.1 hm).elim hne hk'

/-- The records after one has been changed. -/
theorem record?_modifyRecord {id : Nat} {r : Record} (hid : w.record? id = some r)
    (f : Record → Record) (id' : Nat) : (w.binding.machine.modifyRecord id f).record? id' =
      if id' = id then some (f r) else w.record? id' := by
  have hmachine : w.binding.machine.record? id = some r := hid
  rw [Machine.record?_modifyRecord]
  split
  · rename_i heq
    rw [heq, hmachine, Option.map_some]
  · rfl

/-- **A record is discarded** whose userdata is remembered under no key that tells its records. -/
theorem Leads.discard (hw : w.Sound R) {id : Nat} {r : Record} (hid : w.record? id = some r)
    {f : Record → Record} (hf : ∀ r, ∃ p, f r = { r.discard with payload := p })
    (hnone : ∀ k, w.Remembers k id → ¬ k.Faithful w.binding.registry) :
    w.Leads R K (w.withBinding (w.binding.machine.modifyRecord id f) w.binding.cache) := by
  obtain ⟨p, hp⟩ := hf r
  have hrecord := record?_modifyRecord hid f
  rw [hp] at hrecord
  refine Leads.alter hw ⟨rfl, rfl⟩ (hw.binding.userdata.modify id _) hid hrecord
    ((hw.binding.proper hid).ages_discard p) (Record.proper_discard p) (fun handle h ↦ ?_)
    fun k hr hk ↦ absurd hk (hnone k hr)
  exact absurd h (by simp [Record.discard])

/-- **A record is discarded while its key is forgotten.** -/
theorem Leads.forget_discard (hw : w.Sound R) {k : CacheKey} {e : CacheEntry} {r : Record}
    (he : w.binding.cache.find? k = some e) (hid : w.record? e.userdata = some r)
    (honly : ∀ k', w.Remembers k' e.userdata → k'.Faithful w.binding.registry → k' = k)
    {f : Record → Record} (hf : ∀ r, ∃ p, f r = { r.discard with payload := p }) :
    w.Leads R K ((w.forgetting k e).withBinding
      ((w.forgetting k e).binding.machine.modifyRecord e.userdata f)
      (w.forgetting k e).binding.cache) := by
  have hforget : w.Leads R (insert k K) (w.forgetting k e) :=
    Leads.forget hw he fun _ _ ↦ Or.inl (Set.mem_insert k K)
  have hid' : (w.forgetting k e).record? e.userdata = some r := hid
  -- once the key is forgotten, no key remembers the userdata, so its record may be discarded
  have hdiscard : (w.forgetting k e).Leads R (insert k K) _ :=
    Leads.discard hforget.sound hid' hf fun k' hr hk' ↦ by
      obtain ⟨hne, hr⟩ := (hw.remembers_forgetting he).1 hr
      exact hne (honly k' hr hk')
  refine Leads.restrict (hforget.trans hdiscard) (fun id hr ↦ ?_) ?_
  · obtain ⟨e', he', rfl, -⟩ := hr
    obtain rfl := Option.some.inj (he.symm.trans he')
    obtain ⟨p, hp⟩ := hf r
    refine ⟨f r, ?_, Or.inl ?_⟩
    · exact (record?_modifyRecord hid' f e.userdata).trans (if_pos rfl)
    · rw [hp]
      exact Record.discarded_iff.2 rfl
  · show (w.binding.cache.erase k).find? k = none
    rw [IdentityCache.find?_erase, if_pos rfl]

/-! ### Changes that do not matter -/

/-- A change that leaves alone the objects of the host and what the binding keeps about them: a change
of the stack, say, or of a table of the script. -/
structure Quiet (w w' : World) : Prop where
  host : Host.SameAnchors w.host w'.host
  registry : w'.binding.registry = w.binding.registry
  domain : w'.binding.domain = w.binding.domain
  settings : w'.binding.settings = w.binding.settings
  tables : w'.binding.tables = w.binding.tables
  cache : w'.binding.cache = w.binding.cache
  root : w'.binding.machine.registry = w.binding.machine.registry
  userdata : w'.binding.machine.heap.userdata = w.binding.machine.heap.userdata
  registryTable : w'.binding.machine.heap.tables.get? w.binding.machine.registry =
    w.binding.machine.heap.tables.get? w.binding.machine.registry
  cacheTable : w'.binding.machine.heap.tables.get? w.binding.tables.cache =
    w.binding.machine.heap.tables.get? w.binding.tables.cache

/-- A change of machine that leaves the heap alone. -/
theorem Quiet.of_heap {m : Machine} (hheap : m.heap = w.binding.machine.heap)
    (hroot : m.registry = w.binding.machine.registry) :
    w.Quiet { w with binding.machine := m } := by
  refine ⟨⟨fun _ ↦ rfl, rfl⟩, rfl, rfl, rfl, rfl, rfl, hroot, ?_, ?_, ?_⟩ <;> show _ = _ <;>
    simp only [hheap]

theorem Quiet.record? (hq : w.Quiet w') (id : Nat) : w'.record? id = w.record? id := by
  show (w'.binding.machine.heap.userdata.get? id).bind _ = _
  rw [hq.userdata]
  rfl

theorem Quiet.shelf (hq : w.Quiet w') : w'.binding.shelf = w.binding.shelf := by
  have hrecord : w'.binding.machine.record? = w.binding.machine.record? := funext hq.record?
  rw [Binding.shelf, Binding.shelf, hq.tables, hq.cacheTable, hrecord, hq.cache]

/-- A change that leaves the userdata with records alone, but not all other userdata: a walk over a map
has begun, say. -/
structure Aside (w w' : World) : Prop where
  host : Host.SameAnchors w.host w'.host
  registry : w'.binding.registry = w.binding.registry
  domain : w'.binding.domain = w.binding.domain
  settings : w'.binding.settings = w.binding.settings
  tables : w'.binding.tables = w.binding.tables
  cache : w'.binding.cache = w.binding.cache
  root : w'.binding.machine.registry = w.binding.machine.registry
  userdata : w'.binding.machine.heap.userdata.Sound
  record? : ∀ id, w'.record? id = w.record? id
  flag : ∀ {id u r}, w.binding.machine.heap.userdata.get? id = some u → u.record? = some r →
    ∃ u', w'.binding.machine.heap.userdata.get? id = some u' ∧ u'.finalized = u.finalized
  registryTable : w'.binding.machine.heap.tables.get? w.binding.machine.registry =
    w.binding.machine.heap.tables.get? w.binding.machine.registry
  cacheTable : w'.binding.machine.heap.tables.get? w.binding.tables.cache =
    w.binding.machine.heap.tables.get? w.binding.tables.cache

theorem Quiet.aside (hw : w.Sound R) (hq : w.Quiet w') : w.Aside w' where
  host := hq.host
  registry := hq.registry
  domain := hq.domain
  settings := hq.settings
  tables := hq.tables
  cache := hq.cache
  root := hq.root
  userdata := hq.userdata ▸ hw.binding.userdata
  record? := hq.record?
  flag {_ u _} hu _ := ⟨u, hq.userdata ▸ hu, rfl⟩
  registryTable := hq.registryTable
  cacheTable := hq.cacheTable

theorem Aside.shelf (ha : w.Aside w') : w'.binding.shelf = w.binding.shelf := by
  have hrecord : w'.binding.machine.record? = w.binding.machine.record? := funext ha.record?
  rw [Binding.shelf, Binding.shelf, ha.tables, ha.cacheTable, hrecord, ha.cache]

/-- **What leaves records alone changes nothing that the bridge keeps up.** -/
theorem Leads.aside (hw : w.Sound R) (ha : w.Aside w') : w.Leads R K w' := by
  have he : Host.Evolves R w.host w'.host := ha.host.evolves
  have hhost : w.Leads R K { w with host := w'.host } := Leads.host hw he
  have hb := hhost.sound.binding
  refine ⟨⟨hhost.sound.anchored, ?_⟩, hhost.follows, hhost.isSome_weakTable?, ha.registry,
    ha.domain, ha.settings, fun {id r} h ↦ ⟨r, (ha.record? id).trans h, Record.Ages.refl r⟩,
    fun _ {k id} _ _ h ↦ Or.inl ?_, fun {root} _ h ↦ ha.cache ▸ h⟩
  · obtain ⟨t, k, ht, hstrong, hk⟩ := hb.link
    refine ⟨?_, ?_, ha.userdata, fun {id r} h ↦ ?_, fun {id r handle} h ht ↦ ?_, ?_,
      ⟨t, k, ?_, hstrong, ?_⟩, ?_, ?_, ?_⟩
    · rw [ha.domain, ha.registry]
      exact hb.registry
    · rw [ha.domain]
      exact hb.isSome_weakTable?
    · rw [ha.registry]
      exact hb.proper ((ha.record? id).symm.trans h)
    · rw [ha.domain]
      exact hb.serial_lt ((ha.record? id).symm.trans h) ht
    · rw [ha.tables, ha.cacheTable]
      exact hb.cacheTable
    · rw [ha.root, ha.registryTable]
      exact ht
    · rw [ha.tables]
      exact hk
    · rw [ha.tables]
      exact hb.pinned_ne_cache
    · rw [ha.tables, ha.root]
      exact hb.pinned_ne_registry
    · rw [ha.shelf, ha.registry]
      exact hb.shelf
  · rw [Remembers, ha.shelf]
    exact h

/-- What does not matter changes nothing that the bridge keeps up. -/
theorem Leads.quiet (hw : w.Sound R) (hq : w.Quiet w') : w.Leads R K w' :=
  .aside hw (hq.aside hw)

end World

end ObjectBridge
