import Mathlib.Data.Set.Insert
import ObjectBridge.Proofs.Anchors
import ObjectBridge.Proofs.Shelf
import ObjectBridge.Proofs.SlotStore
import ObjectBridge.Resolve

/-!
# What the bridge keeps up

`World.Sound` is the invariant of a world: anchors and slots are in order, and so are the records and
the shelf of the binding. `World.Leads R K w w'` says that `w'` is sound if `w` is, and tells what
every step of the bridge respects:

* the tables of weak objects follow on (`Host.Follows`);
* a record stays what it is: its key and its ownership, and, once it stands for a weak object, the
  handle by which it finds the object, until it is discarded (`Record.Ages`);
* a userdata that is remembered under a key stays remembered, unless its record is discarded, its weak
  object loses its slot, or the key is one of `K`, those that a step may give to another userdata.

The lemmas of the second half say so of the single changes from which the steps are made.
-/

namespace ObjectBridge

/-! ### Weak types -/

namespace Registry

variable {r : Registry}

theorem isWeak_eq {id : Nat} {d : Descriptor} (hd : r.get? id = some d) :
    r.isWeak id = d.isWeak := by
  rw [isWeak, hd]

/-- A type that has a base other than itself is registered. -/
theorem exists_of_isBaseOf (hs : r.Sound) {a b : Nat} (h : r.isBaseOf a b = true) (hne : a ≠ b) :
    ∃ d, r.get? b = some d := by
  obtain ⟨offset, hm⟩ := isBaseOf_iff.1 h
  cases hd : r.get? b with
  | some d => exact ⟨d, rfl⟩
  | none =>
    rw [hs.views_eq, hd] at hm
    simp only [Option.bind_none, List.mem_singleton, Prod.mk.injEq] at hm
    exact absurd hm.1 hne

/-- **The types derived from a weak type are weak.** -/
theorem Sound.isWeak_of_isBaseOf (hs : r.Sound) {a b : Nat} (h : r.isBaseOf a b = true)
    (ha : r.isWeak a = true) : r.isWeak b = true := by
  by_cases hne : a = b
  · rwa [← hne]
  obtain ⟨d, hd⟩ := exists_of_isBaseOf hs h hne
  obtain ⟨offset, hm⟩ := isBaseOf_iff.1 h
  obtain ⟨b', hb'⟩ := hs.get?_of_mem_views hd hm
  rw [isWeak_eq hb', Descriptor.isWeak, Option.isSome_iff_exists] at ha
  obtain ⟨root, hroot⟩ := ha
  rw [isWeak_eq hd, Descriptor.isWeak, hs.weakRoot_eq hm hd hb' hroot]
  rfl

/-- Where no type becomes weak below the root of its line, a whole line is weak or none of it. -/
theorem Sound.isWeak_eq_of_isBaseOf (hs : r.Sound) (hroots : r.WeakAtRoots) {a b : Nat}
    (h : r.isBaseOf a b = true) : r.isWeak b = r.isWeak a := by
  by_cases hne : a = b
  · rw [hne]
  obtain ⟨d, hd⟩ := exists_of_isBaseOf hs h hne
  obtain ⟨offset, hm⟩ := isBaseOf_iff.1 h
  obtain ⟨b', hb'⟩ := hs.get?_of_mem_views hd hm
  rw [isWeak_eq hb', isWeak_eq hd]
  exact hs.inherit (P := fun d ↦ d.isWeak = b'.isWeak)
    (fun hd hsuper hb hp ↦ (hroots hd hsuper hb).trans hp) hm hd hb' rfl

end Registry

/-! ### Records -/

namespace Record

/-- A record that finds its object by a handle exposes a weak type, and it does not own the object. -/
structure Proper (registry : Registry) (r : Record) : Prop where
  exposes : ∀ {h}, r.target = .weak h →
    ∃ type, r.exposed = .declared type ∧ registry.isWeak type = true
  not_owned : ∀ {h}, r.target = .weak h → r.ownership ≠ .owned

/-- A record of a weak type that leads to the object of a handle, or to none. -/
def Carries (registry : Registry) (r : Record) (h : Handle) : Prop :=
  r.type?.any registry.isWeak = true ∧ (r.target = .weak h ∨ r.target = .discarded)

/-- What may become of a record. -/
structure Ages (registry : Registry) (r r' : Record) : Prop where
  ownership : r'.ownership = r.ownership
  carries : ∀ {h}, r.Carries registry h → r'.Carries registry h
  discarded : registry.WeakAtRoots → r.discarded = true → r'.discarded = true
  cacheKey : ∀ {k : CacheKey}, k.Faithful registry → r.cacheKey registry = k →
    r'.cacheKey registry = k

variable {registry : Registry} {r r' r'' : Record}

theorem Ages.refl (r : Record) : r.Ages registry r :=
  ⟨rfl, fun h ↦ h, fun _ h ↦ h, fun _ h ↦ h⟩

theorem Ages.trans (h : r.Ages registry r') (h' : r'.Ages registry r'') : r.Ages registry r'' :=
  ⟨h'.ownership.trans h.ownership, fun hc ↦ h'.carries (h.carries hc),
    fun hr hd ↦ h'.discarded hr (h.discarded hr hd),
    fun hf hk ↦ h'.cacheKey hf (h.cacheKey hf hk)⟩

theorem Proper.carries (hr : r.Proper registry) {h : Handle} (ht : r.target = .weak h) :
    r.Carries registry h := by
  obtain ⟨type, htype, hweak⟩ := hr.exposes ht
  refine ⟨?_, Or.inl ht⟩
  rw [type?, htype]
  exact hweak

/-- A record stands for a weak object exactly if it exposes a weak type. -/
theorem Proper.standsForWeak (hr : r.Proper registry) :
    r.standsForWeak registry = r.type?.any registry.isWeak := by
  rw [Record.standsForWeak]
  cases ht : r.handle? with
  | none => rfl
  | some h =>
    have htarget : r.target = .weak h := by
      rw [handle?] at ht
      split at ht
      · rename_i heq
        rw [heq, Option.some.inj ht]
      · exact absurd ht (by simp)
    rw [(hr.carries htarget).1]
    rfl

/-- Only the record of an owned object has the key of one. -/
theorem owned_of_cacheKey {root : Address} (h : r.cacheKey registry = .owned root) :
    r.ownership = .owned := by
  cases ho : r.ownership with
  | owned => rfl
  | shared => simp [cacheKey, ho] at h
  | borrowed =>
    cases he : r.exposed with
    | container kind => simp [cacheKey, ho, he] at h
    | declared type =>
      simp only [cacheKey, ho, he] at h
      split at h <;> exact absurd h (by simp)

theorem handle?_eq_some {h : Handle} : r.handle? = some h ↔ r.target = .weak h := by
  rw [handle?]
  cases r.target <;> simp

theorem type?_eq_some {type : Nat} : r.type? = some type ↔ r.exposed = .declared type := by
  rw [type?]
  cases r.exposed <;> simp

theorem discarded_iff : r.discarded = true ↔ r.target = .discarded := by
  rw [discarded, decide_eq_true_iff]

/-- The record of a weak object has no key of an object that is not weak. -/
theorem Proper.cacheKey_ne (hr : r.Proper registry) {h : Handle} (ht : r.target = .weak h)
    (root : Address) :
    r.cacheKey registry ≠ .owned root ∧ r.cacheKey registry ≠ .borrowed root := by
  refine ⟨fun hkey ↦ hr.not_owned ht (owned_of_cacheKey hkey), fun hkey ↦ ?_⟩
  obtain ⟨type, he, -⟩ := hr.exposes ht
  rw [cacheKey, he, hr.standsForWeak.trans (hr.carries ht).1] at hkey
  cases ho : r.ownership <;> simp [ho] at hkey

/-- The key of a record depends on what it exposes only through the map and the weakness. -/
theorem cacheKey_congr (hr : r.Proper registry) (hr' : r'.Proper registry) (hkey : r'.key = r.key)
    (hownership : r'.ownership = r.ownership)
    (hexposed : r'.exposed = r.exposed ∨ (∃ type type', r.exposed = .declared type ∧
      r'.exposed = .declared type' ∧ registry.isWeak type' = registry.isWeak type)) :
    r'.cacheKey registry = r.cacheKey registry := by
  have hstands : ∀ {x : Record} {type}, x.Proper registry → x.exposed = .declared type →
      x.standsForWeak registry = registry.isWeak type := fun {x type} hx he ↦ by
    rw [hx.standsForWeak, type?_eq_some.2 he]
    rfl
  rcases hexposed with he | ⟨type, type', he, he', hweak⟩
  · cases hx : r.exposed with
    | container kind =>
      simp only [cacheKey, hownership, he, hx, hkey]
      cases r.ownership <;> rfl
    | declared type =>
      have he' := he.trans hx
      simp only [cacheKey, hownership, he', hx, hkey, hstands hr hx, hstands hr' he']
  · simp only [cacheKey, hownership, he, he', hkey, hstands hr he, hstands hr' he', hweak]
    cases r.ownership <;> rfl

theorem proper_discard (p : Option Payload) :
    Proper registry { r.discard with payload := p } := by
  constructor <;> exact fun h ↦ absurd h (by simp [discard])

theorem Proper.ages_discard (hr : r.Proper registry) (p : Option Payload) :
    r.Ages registry { r.discard with payload := p } where
  ownership := rfl
  carries h := ⟨h.1, Or.inr rfl⟩
  discarded _ _ := discarded_iff.2 rfl
  cacheKey _ hk := (cacheKey_congr hr (proper_discard p) rfl rfl (Or.inl rfl)).trans hk

/-- A record that exposes a more derived type than before. -/
theorem Proper.ages_show (hregistry : registry.Sound) (hr : r.Proper registry) {shown type : Nat}
    {target : Target} (hshown : r.type? = some shown) (hbase : registry.isBaseOf shown type = true)
    (hproper : Proper registry { r with exposed := .declared type, target := target })
    (hcarries : ∀ h, r.Carries registry h → target = .weak h)
    (hdiscarded : registry.WeakAtRoots → r.discarded = false) :
    r.Ages registry { r with exposed := .declared type, target := target } where
  ownership := rfl
  carries {h} hc := by
    refine ⟨?_, Or.inl (hcarries h hc)⟩
    have hweak : registry.isWeak shown = true := by
      have h := hc.1
      rwa [hshown] at h
    exact hregistry.isWeak_of_isBaseOf hbase hweak
  discarded hroots hd := by
    rw [hdiscarded hroots] at hd
    exact absurd hd (by simp)
  cacheKey {k} hf hk := by
    have hexposed := type?_eq_some.1 hshown
    cases ho : r.ownership with
    | shared => rw [← hk]; simp only [Record.cacheKey, ho]
    | owned => rw [← hk]; simp only [Record.cacheKey, ho, hexposed]
    | borrowed =>
      -- the key of a borrowed object says whether it is weak, and is faithful only if all its views are
      have hroots : registry.WeakAtRoots := by
        simp only [Record.cacheKey, ho, hexposed] at hk
        split at hk
        · subst hk
          exact hf.1
        · subst hk
          exact hf
      have hkey := (cacheKey_congr hr hproper rfl rfl (Or.inr ⟨shown, type, hexposed, rfl,
        hregistry.isWeak_eq_of_isBaseOf hroots hbase⟩)).trans hk
      rwa [ho] at hkey

end Record

/-! ### The invariant -/

/-- The shelf of a binding. -/
def Binding.shelf (b : Binding) : Shelf where
  table := (b.machine.heap.tables.get? b.tables.cache).getD {}
  record? := b.machine.record?
  cache := b.cache

/-- What a binding can rely on: the table of its registry, its records, and its shelf. -/
structure Binding.Sound (R : Realm) (h : Host) (b : Binding) : Prop where
  registry : R.registry b.domain = b.registry
  isSome_weakTable? : (h.weakTable? b.domain).isSome = true
  userdata : b.machine.heap.userdata.Sound
  proper : ∀ {id r}, b.machine.record? id = some r → r.Proper b.registry
  /-- The handles of records were handed out. -/
  serial_lt : ∀ {id r handle}, b.machine.record? id = some r → r.target = .weak handle →
    handle.serial < (h.weakTable b.domain).nextSerial
  /-- The table of the cache is there, and its values are weak. -/
  cacheTable : ∃ t, b.machine.heap.tables.get? b.tables.cache = some t ∧ t.weakValues = true
  /-- The table of the cache is kept by a table that is a root. -/
  link : ∃ t k, b.machine.heap.tables.get? b.machine.registry = some t ∧ t.weakValues = false ∧
    t.entries.find? k = some (.table b.tables.cache)
  pinned_ne_cache : b.tables.pinned ≠ b.tables.cache
  pinned_ne_registry : b.tables.pinned ≠ b.machine.registry
  shelf : b.shelf.Sound b.registry

namespace World

variable {R : Realm} {K : Set CacheKey} {w w' w'' : World} {id : Nat}

/-- The record of a userdata. -/
def record? (w : World) (id : Nat) : Option Record :=
  w.binding.machine.record? id

/-- The userdata that is there for a key. -/
def Remembers (w : World) (k : CacheKey) (id : Nat) : Prop :=
  w.binding.shelf.Remembers k id

/-- Anchors and slots, records and shelf are in order. -/
structure Sound (R : Realm) (w : World) : Prop where
  anchored : w.host.Anchored R
  binding : w.binding.Sound R w.host

/-- A userdata whose record is discarded, or whose weak object has lost its slot. -/
def Forsaken (w : World) (id : Nat) : Prop :=
  ∃ r, w.record? id = some r ∧
    (r.discarded = true ∨ ∃ h, r.target = .weak h ∧ w.weakTable.resolve h = none)

theorem forsaken_iff {id : Nat} {r : Record} (hr : w.record? id = some r) :
    w.Forsaken id ↔
      r.discarded = true ∨ ∃ h, r.target = .weak h ∧ w.weakTable.resolve h = none := by
  rw [Forsaken, hr]
  simp

/-- **What every step of the bridge respects.** The keys in `K` may be given to other userdata. -/
structure Leads (R : Realm) (K : Set CacheKey) (w w' : World) : Prop where
  sound : w'.Sound R
  follows : Host.Follows R w.host w'.host
  isSome_weakTable? : ∀ d, (w.host.weakTable? d).isSome = true →
    (w'.host.weakTable? d).isSome = true
  registry : w'.binding.registry = w.binding.registry
  domain : w'.binding.domain = w.binding.domain
  settings : w'.binding.settings = w.binding.settings
  ages : ∀ {id r}, w.record? id = some r →
    ∃ r', w'.record? id = some r' ∧ r.Ages w.binding.registry r'
  remembers : w.binding.registry.WeakAtRoots → ∀ {k id}, k ∉ K → k.Faithful w.binding.registry →
    w.Remembers k id → w'.Remembers k id ∨ w'.Forsaken id
  absent : ∀ {root}, .owned root ∉ K → w.binding.cache.find? (.owned root) = none →
    w'.binding.cache.find? (.owned root) = none

theorem Sound.registry (hw : w.Sound R) : R.registry w.binding.domain = w.binding.registry :=
  hw.binding.registry

theorem Sound.registrySound (hw : w.Sound R) : w.binding.registry.Sound :=
  hw.registry ▸ R.sound w.binding.domain

theorem Sound.weakTable? (hw : w.Sound R) :
    w.host.weakTable? w.binding.domain = some w.weakTable := by
  obtain ⟨t, ht⟩ := Option.isSome_iff_exists.1 hw.binding.isSome_weakTable?
  rw [ht, World.weakTable, Host.weakTable_of_some ht]

theorem Leads.refl (hw : w.Sound R) : w.Leads R K w where
  sound := hw
  follows := Host.Follows.refl _
  isSome_weakTable? _ h := h
  registry := rfl
  domain := rfl
  settings := rfl
  ages {_ r} h := ⟨r, h, Record.Ages.refl r⟩
  remembers _ _ _ _ _ h := Or.inl h
  absent _ h := h

/-- The table of the registry follows on. -/
theorem weakTable_follows (hf : Host.Follows R w.host w'.host) (hw' : w'.Sound R)
    (hdomain : w'.binding.domain = w.binding.domain) :
    WeakTable.Follows (R.registry w.binding.domain).identity w.weakTable w'.weakTable := by
  have ht' := hw'.weakTable?
  rw [hdomain] at ht'
  obtain ⟨t, ht, hft⟩ := hf _ _ ht'
  rwa [World.weakTable, Host.weakTable_of_some ht]

/-- **What is forsaken stays forsaken** as long as its userdata is there. -/
theorem Forsaken.ages (hf : w.Forsaken id) (hw : w.Sound R)
    (hroots : w.binding.registry.WeakAtRoots)
    (hfollows : WeakTable.Follows (R.registry w.binding.domain).identity w.weakTable w'.weakTable)
    (hages : ∀ {r}, w.record? id = some r →
      ∃ r', w'.record? id = some r' ∧ r.Ages w.binding.registry r') : w'.Forsaken id := by
  obtain ⟨r, hr, hgone⟩ := hf
  obtain ⟨r', hr', hages⟩ := hages hr
  refine ⟨r', hr', ?_⟩
  rcases hgone with hd | ⟨handle, htarget, hn⟩
  · exact Or.inl (hages.discarded hroots hd)
  · have hlt := hw.binding.serial_lt hr htarget
    rcases (hages.carries ((hw.binding.proper hr).carries htarget)).2 with ht | ht
    · exact Or.inr ⟨handle, ht, hfollows.resolve_eq_none hlt hn⟩
    · exact Or.inl (Record.discarded_iff.2 ht)

theorem Leads.weakTable_follows (h : w.Leads R K w') :
    WeakTable.Follows (R.registry w.binding.domain).identity w.weakTable w'.weakTable :=
  World.weakTable_follows h.follows h.sound h.domain

theorem Leads.forsaken (h : w.Leads R K w') (hw : w.Sound R)
    (hroots : w.binding.registry.WeakAtRoots) (hf : w.Forsaken id) : w'.Forsaken id :=
  hf.ages hw hroots h.weakTable_follows h.ages

theorem Leads.trans (h : w.Leads R K w') (h' : w'.Leads R K w'') : w.Leads R K w'' where
  sound := h'.sound
  follows := h.follows.trans h'.follows
  isSome_weakTable? d hd := h'.isSome_weakTable? d (h.isSome_weakTable? d hd)
  registry := h'.registry.trans h.registry
  domain := h'.domain.trans h.domain
  settings := h'.settings.trans h.settings
  ages hr := by
    obtain ⟨r', hr', ha⟩ := h.ages hr
    obtain ⟨r'', hr'', ha'⟩ := h'.ages hr'
    rw [h.registry] at ha'
    exact ⟨r'', hr'', ha.trans ha'⟩
  remembers hroots {k id} hk hf hm := by
    have hroots' : w'.binding.registry.WeakAtRoots := h.registry ▸ hroots
    rcases h.remembers hroots hk hf hm with hm | hm
    · exact h'.remembers hroots' hk (h.registry ▸ hf) hm
    · exact Or.inr (h'.forsaken h.sound hroots' hm)
  absent hk ha := h'.absent hk (h.absent hk ha)

/-- More keys may be given away. -/
theorem Leads.mono {K' : Set CacheKey} (h : w.Leads R K w') (hK : K ⊆ K') : w.Leads R K' w' :=
  { h with
    remembers := fun hroots {_ _} hk hf hm ↦ h.remembers hroots (fun hm ↦ hk (hK hm)) hf hm
    absent := fun {_} hk ha ↦ h.absent (fun hm ↦ hk (hK hm)) ha }

end World

end ObjectBridge
