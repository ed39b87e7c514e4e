import ObjectBridge.Finalizer
import ObjectBridge.Proofs.Recalling
import ObjectBridge.Proofs.Thinning

/-!
# Finalizers and cycles of the collector

The finalizer of the bridge is a step that keeps up what the bridge keeps up, on every userdata and
as often as it is called (`ends_finalize`). A cycle of the collector is one that may lose userdata:
`World.Passes R K L w w'` is `World.Leads` with a set `L` of userdata that the step may lose, and for
a cycle those are the userdata that the roots do not reach (`ends_sweep`).
-/

namespace ObjectBridge

namespace World

variable {R : Realm} {K : Set CacheKey} {L : Set Nat} {w w₁ w' : World}

/-! ### Finalizers -/

/-- The world in which the record of a userdata is discarded with what it owned, and its key is
forgotten, if the key has the entry of the userdata. -/
def finalizing (w : World) (id : Nat) (r : Record) : World :=
  match w.binding.cache.entryOf (r.cacheKey w.binding.registry) id with
  | some e => (w.forgetting (r.cacheKey w.binding.registry) e).withBinding
      ((w.forgetting (r.cacheKey w.binding.registry) e).binding.machine.modifyRecord id
        fun r ↦ { r.discard with payload := none })
      (w.forgetting (r.cacheKey w.binding.registry) e).binding.cache
  | none => w.withBinding (w.binding.machine.modifyRecord id
      fun r ↦ { r.discard with payload := none }) w.binding.cache

/-- **The finalizer discards the record of a userdata and forgets its key**, if the key has the entry
of the userdata. -/
theorem Leads.finalize (hw : w.Sound R) {id : Nat} {r : Record} (hid : w.record? id = some r) :
    w.Leads R K (w.finalizing id r) := by
  have hkey : ∀ k, w.Remembers k id → k.Faithful w.binding.registry →
      k = r.cacheKey w.binding.registry := fun k hr hf ↦ by
    obtain ⟨r', hr', hfits⟩ := hw.shelf.recorded hr
    obtain rfl := Option.some.inj (hid.symm.trans hr')
    exact (hfits hf).cacheKey.symm
  rw [finalizing]
  cases he : w.binding.cache.entryOf (r.cacheKey w.binding.registry) id with
  | some e =>
    obtain ⟨hfind, rfl⟩ := (w.binding.cache.entryOf_eq_some).1 he
    exact Leads.forget_discard hw hfind hid hkey fun r ↦ ⟨none, rfl⟩
  | none =>
    refine Leads.discard hw hid (fun r ↦ ⟨none, rfl⟩) fun k hr hf ↦ ?_
    have hk := hkey k hr hf
    obtain ⟨e, hfind, huserdata, -⟩ := hr
    rw [hk] at hfind
    have hsome := (w.binding.cache.entryOf_eq_some).2 ⟨hfind, huserdata⟩
    exact absurd (he.symm.trans hsome) (by simp)

end World

namespace Exec

variable {R : Realm} {K : Set CacheKey} {w : World} {I : World → Prop}

/-- The payload of a record is dropped, if it has one. -/
private theorem ends_dropPayload (r : Record) (hw : I w)
    (hdrop : ∀ p : Payload, I { w with host := w.host.dropPayload p }) :
    Ends (do if let some p := r.payload then modifyHost (·.dropPayload p))
      (fun _ ↦ I) (fun _ _ ↦ False) w := by
  cases r.payload with
  | none => exact hw
  | some p => exact hdrop p

/-- **What holds after the finalizer of the bridge**: what holds when it has nothing to do, and when a
record has been discarded, also after what the record owned has been dropped. -/
theorem ends_finalize (hw : I w)
    (hrecord : ∀ {id r}, w.record? id = some r → I (w.finalizing id r))
    (hdrop : ∀ {w₁ : World} (p : Payload), I w₁ → I { w₁ with host := w₁.host.dropPayload p }) :
    Ends finalize (fun _ ↦ I) (fun _ _ ↦ False) w := by
  simp only [finalize, ends_bind, ends_machine]
  cases (w.binding.machine.valueAt 1).userdata? with
  | none => exact hw
  | some id =>
    simp only
    cases hid : w.binding.machine.record? id with
    | none => exact hw
    | some r =>
      have hfinal := hrecord hid
      have hpayload {w₁ : World} (h₁ : I w₁) := ends_dropPayload r h₁ (hdrop · h₁)
      simp only [finalizeRecord, ends_bind, ends_binding, ends_modifyMachine]
      rw [World.finalizing] at hfinal
      cases he : w.binding.cache.entryOf (r.cacheKey w.binding.registry) id with
      | some e =>
        simp only [he, forget, ends_bind, ends_modifyCache, ends_binding, ends_modifyMachine]
          at hfinal ⊢
        exact (hpayload hfinal).imp (fun _ _ h ↦ h) fun _ _ h ↦ h
      | none =>
        simp only [he] at hfinal
        exact (hpayload hfinal).imp (fun _ _ h ↦ h) fun _ _ h ↦ h

/-- **The finalizer of the bridge keeps up what the bridge keeps up**, whatever it is called on. -/
theorem keeps_finalize (hw : w.Sound R) : Keeps R K finalize (fun _ _ ↦ True) w :=
  (ends_finalize (I := w.Leads R K) (World.Leads.refl hw) (fun hid ↦ World.Leads.finalize hw hid)
    fun p h ↦ h.trans (World.Leads.host h.sound (Host.Evolves.lasting.dropPayload _ p))).imp
      (fun _ _ h ↦ ⟨h, trivial⟩) fun _ _ h ↦ h.elim

end Exec

/-- The registry of a machine can be reached from the roots. -/
theorem Machine.rooted_registry (m : Machine) : m.heap.Rooted m.roots (.table m.registry) :=
  .root (List.mem_filterMap.2 ⟨.table m.registry, by simp [Machine.roots], rfl⟩)

namespace World

variable {R : Realm} {K : Set CacheKey} {L : Set Nat} {w w₁ w' : World}

/-! ### Steps that may lose userdata -/

theorem live_of_record? {id : Nat} {r : Record} (hr : w.record? id = some r) :
    w.binding.machine.heap.userdata.live id = true := by
  have hr' : (w.binding.machine.heap.userdata.get? id).bind Userdata.record? = some r := hr
  obtain ⟨u, hu, -⟩ := Option.bind_eq_some_iff.1 hr'
  exact (SlotStore.live_iff _).2 ⟨u, hu⟩

/-- What a step of the bridge respects that may lose the userdata in `L`. -/
structure Passes (R : Realm) (K : Set CacheKey) (L : Set Nat) (w w' : World) : Prop where
  sound : w'.Sound R
  follows : Host.Follows R w.host w'.host
  isSome_weakTable? : ∀ d, (w.host.weakTable? d).isSome = true →
    (w'.host.weakTable? d).isSome = true
  registry : w'.binding.registry = w.binding.registry
  domain : w'.binding.domain = w.binding.domain
  settings : w'.binding.settings = w.binding.settings
  ages : ∀ {id r}, w.record? id = some r → w'.binding.machine.heap.userdata.live id = true →
    ∃ r', w'.record? id = some r' ∧ r.Ages w.binding.registry r'
  keeps : ∀ {id r}, w.record? id = some r → id ∉ L →
    w'.binding.machine.heap.userdata.live id = true
  remembers : w.binding.registry.WeakAtRoots → ∀ {k id}, k ∉ K → id ∉ L →
    k.Faithful w.binding.registry → w.Remembers k id → w'.Remembers k id ∨ w'.Forsaken id
  absent : ∀ {root}, .owned root ∉ K → w.binding.cache.find? (.owned root) = none →
    w'.binding.cache.find? (.owned root) = none

theorem Leads.passes (h : w.Leads R K w') : w.Passes R K L w' where
  sound := h.sound
  follows := h.follows
  isSome_weakTable? := h.isSome_weakTable?
  registry := h.registry
  domain := h.domain
  settings := h.settings
  ages hr _ := h.ages hr
  keeps hr _ := by
    obtain ⟨r', hr', -⟩ := h.ages hr
    exact live_of_record? hr'
  remembers hroots {_ _} hk _ hf hm := h.remembers hroots hk hf hm
  absent hk ha := h.absent hk ha

theorem Passes.forsaken (h : w.Passes R K L w') (hw : w.Sound R)
    (hroots : w.binding.registry.WeakAtRoots) {id : Nat} (hL : id ∉ L) (hf : w.Forsaken id) :
    w'.Forsaken id :=
  hf.ages hw hroots (World.weakTable_follows h.follows h.sound h.domain) fun hr ↦
    h.ages hr (h.keeps hr hL)

/-- A step that may lose userdata, after one that does not. -/
theorem Passes.after (h' : w₁.Passes R K L w') (h : w.Leads R K w₁) : w.Passes R K L w' where
  sound := h'.sound
  follows := h.follows.trans h'.follows
  isSome_weakTable? d hd := h'.isSome_weakTable? d (h.isSome_weakTable? d hd)
  registry := h'.registry.trans h.registry
  domain := h'.domain.trans h.domain
  settings := h'.settings.trans h.settings
  ages hr hl := by
    obtain ⟨r₁, hr₁, ha⟩ := h.ages hr
    obtain ⟨r', hr', ha'⟩ := h'.ages hr₁ hl
    rw [h.registry] at ha'
    exact ⟨r', hr', ha.trans ha'⟩
  keeps hr hL := by
    obtain ⟨r₁, hr₁, -⟩ := h.ages hr
    exact h'.keeps hr₁ hL
  remembers hroots {k id} hk hL hf hm := by
    have hroots₁ : w₁.binding.registry.WeakAtRoots := h.registry ▸ hroots
    rcases h.remembers hroots hk hf hm with hm | hm
    · exact h'.remembers hroots₁ hk hL (h.registry ▸ hf) hm
    · exact Or.inr (h'.forsaken h.sound hroots₁ hL hm)
  absent hk ha := h'.absent hk (h.absent hk ha)

/-- A change of the host, after a step that may lose userdata. -/
theorem Passes.host (h : w.Passes R K L w₁) {host : Host} (he : Host.Evolves R w₁.host host) :
    w.Passes R K L { w₁ with host := host } := by
  have hl : w₁.Leads R K { w₁ with host := host } := Leads.host h.sound he
  refine ⟨hl.sound, h.follows.trans hl.follows,
    fun d hd ↦ hl.isSome_weakTable? d (h.isSome_weakTable? d hd), h.registry, h.domain, h.settings,
    fun hr hlive ↦ h.ages hr hlive, fun hr hL ↦ h.keeps hr hL, fun hroots {k id} hk hL hf hm ↦ ?_,
    fun hk ha ↦ h.absent hk ha⟩
  refine (h.remembers hroots hk hL hf hm).imp_right fun hgone ↦ ?_
  exact hl.forsaken h.sound (h.registry ▸ hroots) hgone

/-! ### Cycles of the collector -/

/-- The userdata that the roots do not reach. -/
def unreached (w : World) : Set Nat :=
  {id | ¬ w.binding.machine.heap.Rooted w.binding.machine.roots (.userdata id)}

/-- The table of the cache can be reached from the roots. -/
theorem Sound.rooted_cacheTable (hw : w.Sound R) :
    w.binding.machine.heap.Rooted w.binding.machine.roots (.table w.binding.tables.cache) := by
  obtain ⟨t, k, ht, hstrong, hk⟩ := hw.binding.link
  exact w.binding.machine.rooted_registry.entry ht hstrong hk rfl

/-- A machine that a cycle of the collector leaves, complete or not. -/
structure Thinned (w : World) (m : Machine) : Prop where
  heap : w.binding.machine.heap.Thins w.binding.machine.roots m.heap
  registry : m.registry = w.binding.machine.registry

variable {m : Machine} {k : CacheKey} {id : Nat} {r : Record}

/-- A userdata that a cycle leaves has the record that it had. -/
theorem Thinned.record?_eq (h : w.Thinned m) (hlive : m.heap.userdata.live id = true) :
    m.record? id = w.record? id := by
  obtain ⟨u', hu'⟩ := m.heap.userdata.live_iff.1 hlive
  obtain ⟨u, hu, hcontent⟩ := h.heap.userdata hu'
  show (m.heap.userdata.get? id).bind Userdata.record? =
    (w.binding.machine.heap.userdata.get? id).bind Userdata.record?
  rw [hu, hu', Option.bind_some, Option.bind_some, Userdata.record?, Userdata.record?, hcontent]

theorem Thinned.record?_eq_some (h : w.Thinned m) (hr : m.record? id = some r) :
    w.record? id = some r := by
  obtain ⟨u, hu, -⟩ := Option.bind_eq_some_iff.1 hr
  exact (h.record?_eq ((SlotStore.live_iff _).2 ⟨u, hu⟩)).symm.trans hr

/-- **The shelf after a cycle**: the table has lost nothing that the roots reach, and keeps no userdata
that is gone. -/
theorem Sound.shelf_thinned (hw : w.Sound R) (h : w.Thinned m) : ∃ t,
    m.heap.tables.get? w.binding.tables.cache = some t ∧
      w.shelfWith m w.binding.cache = ⟨t, m.record?, w.binding.cache⟩ ∧
      w.shelfTable.Sheds (w.binding.machine.heap.Rooted w.binding.machine.roots) t ∧
      ∀ {k u}, t.get k = .userdata u → w.binding.machine.heap.userdata.live u = true →
        m.heap.userdata.live u = true := by
  obtain ⟨hcache, hweak⟩ := hw.cacheTable
  obtain ⟨t, ht, hsheds, hlive⟩ := h.heap.weak hcache hweak hw.rooted_cacheTable
  refine ⟨t, ht, ?_, hsheds, fun {k u} hget hl ↦ hlive (k := k) ?_ hl⟩
  · rw [shelfWith, ht]
    rfl
  · rw [Table.get] at hget
    cases hfind : t.entries.find? k with
    | none => simp [hfind] at hget
    | some v => rw [← hget, hfind, Option.getD_some]

/-- A key remembers nothing after a cycle but what it remembered. -/
theorem Sound.remembers_of_thinned (hw : w.Sound R) (h : w.Thinned m)
    (hm : (w.withBinding m w.binding.cache).Remembers k id) : w.Remembers k id := by
  obtain ⟨t, -, hshelf, hsheds, -⟩ := hw.shelf_thinned h
  obtain ⟨e, he, hid, hslot⟩ : Shelf.Remembers ⟨t, m.record?, w.binding.cache⟩ k id := hshelf ▸ hm
  refine ⟨e, he, hid, ?_⟩
  rcases hsheds.get (.integer e.reference) with hsame | hnil
  · exact hsame.symm.trans hslot
  · exact absurd (hnil.symm.trans hslot) (by simp)

/-- And it remembers what the roots reach. -/
theorem Sound.remembers_thinned (hw : w.Sound R) (h : w.Thinned m) (hid : id ∉ w.unreached)
    (hm : w.Remembers k id) : (w.withBinding m w.binding.cache).Remembers k id := by
  obtain ⟨t, -, hshelf, hsheds, -⟩ := hw.shelf_thinned h
  obtain ⟨e, he, hid', hslot⟩ := hm
  show (w.shelfWith m w.binding.cache).Remembers k id
  rw [hshelf]
  refine ⟨e, he, hid', hsheds.get_of_alive hslot (by simp) fun r hr ↦ ?_⟩
  obtain rfl := Option.some.inj hr
  exact not_not.1 hid

/-- The shelf stays in order: what is left in the table is there, and has the record that it had. -/
theorem Sound.sound_shelf_thinned (hw : w.Sound R) (h : w.Thinned m) :
    (w.shelfWith m w.binding.cache).Sound w.binding.registry := by
  obtain ⟨t, -, hshelf, hsheds, hlive⟩ := hw.shelf_thinned h
  have hpruned : Shelf.Sound w.binding.registry { w.binding.shelf with table := t } :=
    hw.shelf.withTable (hsheds.references hw.shelf.references) (fun hr ↦ hsheds.allocated hr)
      fun _ ↦ hsheds.get _
  rw [hshelf]
  refine hpruned.withRecords fun {k id r} hr hrec ↦ ⟨r, ?_, fun _ hf ↦ hf⟩
  obtain ⟨e, -, -, hslot⟩ := hr
  exact (h.record?_eq (hlive hslot (live_of_record? hrec))).trans hrec

theorem Sound.thinned (hw : w.Sound R) (h : w.Thinned m) :
    (w.withBinding m w.binding.cache).Sound R where
  anchored := hw.anchored
  binding := {
    registry := hw.binding.registry
    isSome_weakTable? := hw.binding.isSome_weakTable?
    userdata := h.heap.sound hw.binding.userdata
    proper := fun hr ↦ hw.binding.proper (h.record?_eq_some hr)
    serial_lt := fun hr ht ↦ hw.binding.serial_lt (h.record?_eq_some hr) ht
    cacheTable := by
      obtain ⟨t, ht, -, hsheds, -⟩ := hw.shelf_thinned h
      exact ⟨t, ht, hsheds.weakValues.trans hw.cacheTable.2⟩
    link := by
      obtain ⟨t, k, ht, hstrong, hk⟩ := hw.binding.link
      refine ⟨t, k, ?_, hstrong, hk⟩
      show m.heap.tables.get? m.registry = some t
      rw [h.registry]
      exact h.heap.strong ht hstrong w.binding.machine.rooted_registry
    pinned_ne_cache := hw.binding.pinned_ne_cache
    pinned_ne_registry := by
      show w.binding.tables.pinned ≠ m.registry
      rw [h.registry]
      exact hw.binding.pinned_ne_registry
    shelf := hw.sound_shelf_thinned h }

/-- **A cycle, complete or not, keeps up what the bridge keeps up**, the userdata apart that the roots
do not reach. -/
theorem Passes.thin (hw : w.Sound R) (h : w.Thinned m) :
    w.Passes R K w.unreached (w.withBinding m w.binding.cache) where
  sound := hw.thinned h
  follows := Host.Follows.refl _
  isSome_weakTable? _ hd := hd
  registry := rfl
  domain := rfl
  settings := rfl
  ages hr hlive := ⟨_, (h.record?_eq hlive).trans hr, Record.Ages.refl _⟩
  keeps hr hid := h.heap.rooted (r := .userdata _) (live_of_record? hr) (not_not.1 hid)
  remembers _ {_ _} _ hid _ hm := Or.inl (hw.remembers_thinned h hid hm)
  absent _ ha := ha

end World

namespace Exec

variable {R : Realm} {K : Set CacheKey} {w : World}

theorem quiet_flushed (hw : w.Sound R) : w.Quiet (flushed w) := by
  obtain ⟨tables, hmachine, htables⟩ := machine_flushed w
  refine ⟨⟨fun _ ↦ rfl, rfl⟩, rfl, rfl, rfl, rfl, rfl, ?_, ?_, ?_, ?_⟩ <;> rw [hmachine]
  · exact htables _ hw.binding.pinned_ne_registry
  · exact htables _ hw.binding.pinned_ne_cache

/-- **What holds after a cycle of the collector**: what holds after the heap has been thinned, also after
what removed userdata owned has been dropped. -/
theorem ends_sweep_of_thins {I : World → Prop}
    (hthins : ∀ {m : Machine}, (flushed w).Thinned m →
      I ((flushed w).withBinding m (flushed w).binding.cache))
    (hdrop : ∀ {w₁ : World} (us : List Userdata), I w₁ →
      I { w₁ with host := us.foldl Host.dropUserdata w₁.host }) :
    Ends sweep (fun _ ↦ I) (fun _ ↦ I) w := by
  simp only [sweep, ends_bind, ends_flushPins, ends_machine]
  split
  · rename_i i hi
    simp only [ends_bind, ends_modifyMachine, ends_panic]
    exact hthins (m := { (flushed w).binding.machine with heap := i.heap })
      ⟨Heap.thins_of_collect_error hi, rfl⟩
  · rename_i c hc
    simp only [ends_bind, ends_modifyMachine, ends_modifyHost, ends_pure]
    exact hdrop c.removed (hthins (m := { (flushed w).binding.machine with
      heap := c.heap, tally := (flushed w).binding.machine.tally.add c.tally })
        ⟨Heap.thins_of_collect hc, rfl⟩)

/-- **A cycle of the collector** may lose the userdata that the roots do not reach, and keeps up the
rest, complete or not. -/
theorem ends_sweep (hw : w.Sound R) :
    Ends sweep (fun _ w' ↦ w.Passes R K (flushed w).unreached w')
      (fun _ w' ↦ w.Passes R K (flushed w).unreached w') w := by
  have hflush : w.Leads R K (flushed w) := World.Leads.quiet hw (quiet_flushed hw)
  exact ends_sweep_of_thins (I := w.Passes R K (flushed w).unreached)
    (fun hthins ↦ (World.Passes.thin hflush.sound hthins).after hflush)
    fun us h ↦ h.host (Host.Evolves.lasting.dropAll _ us)

end Exec

end ObjectBridge
