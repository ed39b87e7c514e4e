import ObjectBridge.Proofs.Growth
import ObjectBridge.Proofs.Handles
import ObjectBridge.Proofs.Recalling
import ObjectBridge.Push

/-!
# Pushing objects

Every push keeps up what the bridge keeps up, and `World.Pushed` says which value it leaves on the
stack for an object: the userdata that owns the object, if there is one; a word that the object is
packed into; or else the userdata that is remembered under the key of the object. A userdata that
was remembered before is passed over only if its record is of another handle, or of a type that has
nothing to do with the pushed one.
-/

namespace ObjectBridge

/-- One of two types is derived from the other. -/
def Registry.Comparable (r : Registry) (a b : Nat) : Prop :=
  r.isBaseOf a b = true ∨ r.isBaseOf b a = true

namespace World

variable {R : Realm} {K : Set CacheKey} {w w₁ w' : World} {v : View} {h : Handle} {x : Value}

/-- The key of the object seen as `v` among the owned and the borrowed objects. -/
def rootOf (w : World) (v : View) : Address :=
  (w.binding.registry.root v).address

/-- **What a push leaves on the stack** for the object seen as `v`. -/
inductive Pushed (w : World) (v : View) (w' : World) : Value → Prop
  /-- The userdata that owns the object. -/
  | owned {id : Nat} (there : w.Remembers (.owned (w.rootOf v)) id)
      (stays : w'.Remembers (.owned (w.rootOf v)) id) : Pushed w v w' (.userdata id)
  /-- A word with the handle of the object. -/
  | weakWord {h : Handle} {word : UInt64} (weak : w.binding.registry.isWeak v.type = true)
      (light : w.binding.settings.lightUserdata = true)
      (handle : w'.HandleOf v h) (packed : w.binding.registry.packWeak? h v.type = some word) :
      Pushed w v w' (.word word)
  /-- A userdata with the handle of the object, the one that was remembered if there was one. -/
  | weak {h : Handle} {id : Nat} {r : Record} (weak : w.binding.registry.isWeak v.type = true)
      (unowned : ∀ id', ¬ w.Remembers (.owned (w.rootOf v)) id')
      (absent : w'.binding.cache.find? (.owned (w.rootOf v)) = none) (handle : w'.HandleOf v h)
      (kept : ∀ h', w.HandleOf v h' → h' = h) (there : w'.Remembers (.weak h.index) id)
      (record : w'.record? id = some r) (target : r.target = .weak h)
      (known : ∀ {id' r'}, w.Remembers (.weak h.index) id' → w.record? id' = some r' →
        r'.target = .weak h → id' = id) : Pushed w v w' (.userdata id)
  /-- A word with the address of the object. -/
  | word {word : UInt64} (strong : w.binding.registry.isWeak v.type = false)
      (light : w.binding.settings.lightUserdata = true)
      (packed : w.binding.registry.packPointer? v = some word) : Pushed w v w' (.word word)
  /-- A userdata that shows a comparable type, the one that was remembered if there was one. -/
  | borrowed {id : Nat} (strong : w.binding.registry.isWeak v.type = false)
      (unowned : ∀ id', ¬ w.Remembers (.owned (w.rootOf v)) id')
      (absent : w'.binding.cache.find? (.owned (w.rootOf v)) = none)
      (there : w'.Remembers (.borrowed (w.rootOf v)) id)
      (known : ∀ {id' r' shown}, w.Remembers (.borrowed (w.rootOf v)) id' →
        w.record? id' = some r' → r'.type? = some shown →
        w.binding.registry.Comparable shown v.type → id' = id) : Pushed w v w' (.userdata id)

/-- No userdata is there that could stand for the weak object seen as `v`. -/
structure Unknown (w : World) (v : View) (w' : World) : Prop where
  weak : w.binding.registry.isWeak v.type = true
  unowned : ∀ id, ¬ w.Remembers (.owned (w.rootOf v)) id
  unheld : ∃ h, (∀ h', w.HandleOf v h' → h' = h) ∧
    ∀ {id r}, w.Remembers (.weak h.index) id → w.record? id = some r → r.target ≠ .weak h

/-- **The record of one userdata changes**, and nothing else but its metatable. -/
structure Alters (w : World) (id : Nat) (r : Record) (w' : World) : Prop where
  record? : ∀ id', w'.record? id' = if id' = id then some r else w.record? id'
  host : w'.host = w.host
  stack : w'.binding.machine.stack = w.binding.machine.stack
  remembers : ∀ k id', w'.Remembers k id' ↔ w.Remembers k id'

theorem Alters.record {id : Nat} {r : Record} (h : w.Alters id r w') : w'.record? id = some r :=
  (h.record? id).trans (if_pos rfl)

/-- **The weak object seen as `v` has been given a handle**, the one it had if it had one. -/
structure Seated (R : Realm) (w : World) (v : View) (h : Handle) (w' : World) : Prop where
  binding : w'.binding = w.binding
  grows : Host.Grows R w.host w'.host
  handle : w'.HandleOf v h
  kept : ∀ h', w.HandleOf v h' → h' = h
  seats : w.weakTable.Seats w.binding.registry v h w'.weakTable

theorem Seated.remembers {v : View} {h : Handle} (hs : w.Seated R v h w') {k : CacheKey}
    {id : Nat} : w'.Remembers k id ↔ w.Remembers k id := by
  rw [Remembers, Remembers, hs.binding]

theorem Seated.record? {v : View} {h : Handle} (hs : w.Seated R v h w') (id : Nat) :
    w'.record? id = w.record? id := by
  rw [World.record?, World.record?, hs.binding]

/-- A slot has gone to another object, and the handle of a record is lost with it. -/
theorem forsaken_of_slot {id : Nat} {r : Record} {h h' : Handle} {u : View}
    (hid : w.record? id = some r) (ht : r.target = .weak h') (hindex : h'.index = h.index)
    (hu : w.weakTable.Holds h.index h.serial u) (hne : r.target ≠ .weak h) : w.Forsaken id := by
  refine ⟨r, hid, Or.inr ⟨h', ht, ?_⟩⟩
  cases hres : w.weakTable.resolve h' with
  | none => rfl
  | some u' =>
    have hu' := w.weakTable.resolve_eq_some_iff.1 hres
    rw [hindex] at hu'
    refine absurd ?_ hne
    calc r.target = .weak ⟨h'.index, h'.serial⟩ := ht
      _ = .weak ⟨h.index, h.serial⟩ := by rw [hindex, (hu.unique hu').1]

/-- A key without an entry remembers nothing. -/
theorem not_remembers_of_find?_eq_none {k : CacheKey} (hk : w.binding.cache.find? k = none)
    (id : Nat) : ¬ w.Remembers k id := by
  rintro ⟨e, he, -⟩
  exact absurd (hk.symm.trans he) (by simp)

end World

namespace Exec

variable {R : Realm} {K : Set CacheKey} {w : World}

/-! ### Views of a userdata -/

/-- The record of a userdata that shows a more derived type. -/
def shownAs (r : Record) (type : Nat) (target : Target) : Record :=
  { r with exposed := .declared type, target := target }

/-- The machine in which a userdata shows a more derived type, with the metatable of the type. -/
def showing (m : Machine) (id type : Nat) (target : Target) (metatable : Option Nat) : Machine :=
  let m := m.modifyRecord id fun r ↦ shownAs r type target
  { m with heap := m.heap.modifyUserdata id fun u ↦ { u with metatable := metatable } }

theorem record?_showing {m : Machine} {id : Nat} {r : Record} (hr : m.record? id = some r)
    (type : Nat) (target : Target) (metatable : Option Nat) (id' : Nat) :
    (showing m id type target metatable).record? id' =
      if id' = id then some (shownAs r type target) else m.record? id' := by
  have hmodified : (showing m id type target metatable).record? id' =
      (m.modifyRecord id fun r ↦ shownAs r type target).record? id' := by
    rw [Machine.record?, showing, Heap.modifyUserdata, SlotStore.get?_modify, Machine.record?]
    split
    · cases (m.modifyRecord id fun r ↦ shownAs r type target).heap.userdata.get? id' <;> rfl
    · rfl
  rw [hmodified, Machine.record?_modifyRecord]
  split
  · rename_i heq
    rw [heq, hr, Option.map_some]
  · rfl

/-- What has to be known of a record before its userdata may show a more derived type. -/
structure Showable (w : World) (r : Record) (type : Nat) (target : Target) : Prop where
  weak : ∀ h, target = .weak h → w.binding.registry.isWeak type = true ∧ r.ownership ≠ .owned ∧
    h.serial < w.weakTable.nextSerial
  carries : ∀ h, r.Carries w.binding.registry h → target = .weak h
  not_discarded : w.binding.registry.WeakAtRoots → r.discarded = false
  ne_discarded : target ≠ .discarded

theorem Showable.issuable {r : Record} {type : Nat} {target : Target}
    (hs : Showable w r type target) : Issuable w (shownAs r type target) where
  proper := ⟨fun h ↦ ⟨type, rfl, (hs.weak _ h).1⟩, fun h ↦ (hs.weak _ h).2.1⟩
  serial_lt handle h := (hs.weak handle h).2.2

theorem Showable.ages {r : Record} {shown type : Nat} {target : Target}
    (hs : Showable w r type target) (hw : w.Sound R) (hr : r.Proper w.binding.registry)
    (hshown : r.type? = some shown) (hbase : w.binding.registry.isBaseOf shown type = true) :
    r.Ages w.binding.registry (shownAs r type target) :=
  hr.ages_show hw.registrySound hshown hbase hs.issuable.proper hs.carries hs.not_discarded

/-- A record that shows a more derived type fits the keys that it fitted. -/
theorem Showable.fits {r : Record} {type : Nat} {target : Target} {k : CacheKey}
    (hs : Showable w r type target) (hr : r.Proper w.binding.registry)
    (hages : r.Ages w.binding.registry (shownAs r type target))
    (hf : k.Faithful w.binding.registry) (hfits : r.Fits w.binding.registry k) :
    (shownAs r type target).Fits w.binding.registry k where
  not_discarded := decide_eq_false hs.ne_discarded
  cacheKey := hages.cacheKey hf hfits.cacheKey
  handle hk := by
    obtain ⟨h, ht, hi⟩ := hfits.handle hk
    exact ⟨h, hs.carries h (hr.carries ht), hi⟩

/-- What has become of a userdata that was to show a type: it shows it if it showed a base of it,
and otherwise what it showed. -/
inductive Reshown (w : World) (id : Nat) (r : Record) (type : Nat) (target : Target) (w' : World) : Prop
  | kept (same : w' = w) (settled : ∀ shown, r.type? = some shown →
      ¬ (shown ≠ type ∧ w.binding.registry.isBaseOf shown type = true))
  | changed {shown : Nat} (alters : w.Alters id (shownAs r type target) w')
      (showed : r.type? = some shown) (ne : shown ≠ type)
      (base : w.binding.registry.isBaseOf shown type = true)

section Reshown

variable {w' : World} {id type : Nat} {r : Record} {target : Target}

theorem Reshown.host (h : Reshown w id r type target w') : w'.host = w.host := by
  cases h with
  | kept same _ => rw [same]
  | changed alters _ _ _ => exact alters.host

theorem Reshown.stack (h : Reshown w id r type target w') :
    w'.binding.machine.stack = w.binding.machine.stack := by
  cases h with
  | kept same _ => rw [same]
  | changed alters _ _ _ => exact alters.stack

theorem Reshown.top? (h : Reshown w id r type target w') : w'.top? = w.top? := by
  rw [World.top?, World.top?, h.stack]

theorem Reshown.remembers (h : Reshown w id r type target w') (k : CacheKey) (id' : Nat) :
    w'.Remembers k id' ↔ w.Remembers k id' := by
  cases h with
  | kept same _ => rw [same]
  | changed alters _ _ _ => exact alters.remembers k id'

end Reshown

/-- **A userdata shows a more derived type** if it shows a base of it, and otherwise stays as it is.
-/
theorem ends_upgradeView (hw : w.Sound R) {id : Nat} {r : Record} (hid : w.record? id = some r)
    {type : Nat} {target : Target}
    (hshow : ∀ shown, r.type? = some shown → shown ≠ type →
      w.binding.registry.isBaseOf shown type = true → Showable w r type target) :
    Ends (upgradeView id type target)
      (fun _ w' ↦ w.Leads R K w' ∧ Reshown w id r type target w')
      (fun _ _ ↦ False) w := by
  have hmachine : w.binding.machine.record? id = some r := hid
  simp only [upgradeView, ends_bind, ends_machine, hmachine, Option.bind_some]
  cases hshown : r.type? with
  | none => exact ⟨World.Leads.refl hw, .kept rfl fun _ h ↦ absurd (hshown.symm.trans h) (by simp)⟩
  | some shown =>
    simp only [ends_bind, ends_registry]
    split
    · rename_i hmore
      have hs := hshow shown hshown hmore.1 hmore.2
      have hages := hs.ages hw (hw.binding.proper hid) hshown hmore.2
      simp only [ends_bind, ends_typeMetatable, ends_modifyMachine]
      have hrecord := record?_showing hmachine type target
        (w.binding.machine.rawGetPosition w.binding.tables.typeMetatables (type + 1)).table?
      exact ⟨World.Leads.alter hw ⟨rfl, rfl⟩ ((hw.binding.userdata.modify id _).modify id _) hid
        hrecord hages hs.issuable.proper hs.issuable.serial_lt
        (fun k _ hf hfits ↦ hs.fits (hw.binding.proper hid) hages hf hfits),
        .changed ⟨hrecord, rfl, rfl, fun _ _ ↦ Iff.rfl⟩ hshown hmore.1 hmore.2⟩
    · rename_i hsame
      refine ⟨World.Leads.refl hw, .kept rfl fun x hx ↦ ?_⟩
      rwa [← Option.some.inj (hshown.symm.trans hx)]

/-! ### Whether a userdata fits -/

/-- **A userdata stands for a weak object exactly if its record has the handle of the object.** -/
theorem ends_rejoin (hw : w.Sound R) {id : Nat} {r : Record} (hid : w.record? id = some r)
    {handle : Handle} {type : Nat} (hweak : w.binding.registry.isWeak type = true)
    (hlt : handle.serial < w.weakTable.nextSerial) :
    Ends (rejoin id handle type)
      (fun ok w' ↦
        (ok = true ∧ r.target = .weak handle ∧ w.Leads R K w' ∧
          Reshown w id r type (.weak handle) w') ∨
        (ok = false ∧ w' = w ∧ r.target ≠ .weak handle))
      (fun _ _ ↦ False) w := by
  have hmachine : w.binding.machine.record? id = some r := hid
  simp only [rejoin, ends_bind, ends_machine, hmachine, Option.bind_some]
  by_cases htarget : r.target = .weak handle
  · have hhandle : r.handle? = some handle := Record.handle?_eq_some.2 htarget
    have hproper := hw.binding.proper hid
    simp only [hhandle, ne_eq, not_true_eq_false, if_false, ends_bind]
    refine (ends_upgradeView (K := K) hw hid fun shown _ _ _ ↦ ⟨fun h hh ↦ ?_, fun h hc ↦ ?_,
      fun _ ↦ ?_, by simp⟩).imp (fun _ w' h ↦ Or.inl ⟨rfl, htarget, h⟩) fun _ _ h ↦ h
    · obtain rfl := Target.weak.inj hh
      exact ⟨hweak, hproper.not_owned htarget, hlt⟩
    · rcases hc.2 with h | h
      · rw [← h, htarget]
      · exact absurd (h.symm.trans htarget) (by simp)
    · rw [Record.discarded, htarget]
      rfl
  · have hhandle : r.handle? ≠ some handle := fun h ↦ htarget (Record.handle?_eq_some.1 h)
    simp only [hhandle, ne_eq, not_false_eq_true, if_true]
    exact Or.inr ⟨rfl, rfl, htarget⟩

/-- **A userdata stands for a borrowed object if it shows a comparable type**; otherwise its record
is discarded. -/
theorem ends_reuse (hw : w.Sound R) {id : Nat} {r : Record} (hid : w.record? id = some r)
    {root : Address} {v : View} (hweak : w.binding.registry.isWeak v.type = false)
    (hfits : w.binding.registry.WeakAtRoots → r.Fits w.binding.registry (.borrowed root)) :
    Ends (reuse id v)
      (fun ok w' ↦
        (ok = true ∧ (∃ shown, r.type? = some shown ∧ w.binding.registry.Comparable shown v.type) ∧
          w.Leads R K w' ∧ Reshown w id r v.type (.pointer v.address) w') ∨
        (ok = false ∧ Unfit K (.borrowed root) id w w' ∧
          ∀ shown, r.type? = some shown → ¬ w.binding.registry.Comparable shown v.type))
      (fun _ _ ↦ False) w := by
  have hmachine : w.binding.machine.record? id = some r := hid
  simp only [reuse, ends_bind, ends_registry, ends_machine, hmachine, Option.bind_some]
  cases hshown : r.type? with
  | none =>
    refine Or.inr ⟨rfl, Or.inl ⟨rfl, Or.inr fun hroots _ ↦ ?_⟩, fun _ h ↦ absurd h (by simp)⟩
    -- a record that fits the key of a borrowed object exposes a type
    have hkey := (hfits hroots).cacheKey
    have hcontainer : ∃ kind, r.exposed = .container kind := by
      rw [Record.type?] at hshown
      cases he : r.exposed with
      | declared type => simp [he] at hshown
      | container kind => exact ⟨kind, rfl⟩
    obtain ⟨kind, he⟩ := hcontainer
    rw [Record.cacheKey, he] at hkey
    cases ho : r.ownership <;> simp [ho] at hkey
  | some shown =>
    simp only
    split
    · rename_i hless
      have hrefl := hw.registrySound.isBaseOf_refl v.type
      have hbase : w.binding.registry.isBaseOf v.type shown = true :=
        hless.elim (fun h ↦ h ▸ hrefl) fun h ↦ h
      refine Or.inl ⟨rfl, ⟨shown, rfl, Or.inr hbase⟩, World.Leads.refl hw, .kept rfl fun x hx h ↦ ?_⟩
      obtain rfl := Option.some.inj (hshown.symm.trans hx)
      exact h.1 (hw.registrySound.isBaseOf_antisymm h.2 hbase)
    · rename_i hless
      split
      · rename_i hmore
        simp only [ends_bind]
        refine (ends_upgradeView (K := K) hw hid fun x hx _ _ ↦ ⟨fun h hh ↦ ?_, fun h hc ↦ ?_,
          fun hroots ↦ (hfits hroots).not_discarded, by simp⟩).imp
          (fun _ w' h ↦ Or.inl ⟨rfl, ⟨shown, rfl, Or.inl hmore⟩, h⟩) fun _ _ h ↦ h
        · exact absurd hh (by simp)
        · have hx := hc.1
          rw [hshown] at hx
          rw [hw.registrySound.isWeak_of_isBaseOf hmore hx] at hweak
          exact absurd hweak (by simp)
      · rename_i hmore
        simp only [ends_bind, ends_modifyMachine, ends_pure]
        refine Or.inr ⟨trivial, Or.inr ⟨rfl, r, hid⟩, fun x hx ↦ ?_⟩
        obtain rfl := Option.some.inj hx
        rintro (h | h)
        · exact hmore h
        · exact hless (Or.inr h)

/-! ### Handles -/

/-- A handle is asked for, and what the host makes of it stays. -/
theorem ends_weakHandle_iff (v : View) {Q : Option Handle → World → Prop}
    {E : Interrupt → World → Prop} :
    Ends (weakHandle v) Q E w ↔
      match w.host.weakHandle? w.binding.registry w.binding.domain v with
      | some (handle, h) => Q (some handle) { w with host := h }
      | none => Q none w := by
  simp only [weakHandle, ends_bind, ends_binding, ends_host]
  cases w.host.weakHandle? w.binding.registry w.binding.domain v <;> exact .rfl

/-- **A weak object has a handle**, and keeps the one it has. -/
theorem exists_weakHandle? (hw : w.Sound R) {v : View}
    (hweak : w.binding.registry.isWeak v.type = true)
    (hsingle : w.Single v) :
    ∃ handle h, w.host.weakHandle? w.binding.registry w.binding.domain v = some (handle, h) ∧
      w.Leads R K { w with host := h } ∧ w.Seated R v handle { w with host := h } := by
  obtain ⟨offset, hanchor, hcell⟩ := hw.registrySound.exists_anchorCell? hweak
  have hreg := hw.registry
  have hacquired := hw.anchored.acquired (d := w.binding.domain)
    hw.binding.isSome_weakTable? (hreg ▸ hcell)
  obtain ⟨hgrows, t', ht', hseats⟩ := hw.anchored.grows_acquire hw.weakTable?
    ((w.binding.registry.root v).address.up offset) v
  rw [hreg] at hacquired hgrows ht' hseats
  refine ⟨_, _, by simp only [Host.weakHandle?, hanchor]; rfl, World.Leads.host hw hacquired.evolves,
    rfl, hgrows, ?_, fun h' hh' ↦ ?_, ?_⟩
  · obtain ⟨t, u, ht, hu, huc, hroot⟩ := hacquired.holds hw.anchored (hsingle.host hw)
    rw [hreg] at huc hroot
    refine ⟨_, u, hcell, hacquired.anchor, ?_, Prod.ext (huc.trans hcell.symm) hroot⟩
    rw [World.weakTable, Host.weakTable_of_some ht]
    exact hu
  · obtain ⟨-, u, -, -, hu, hidentity⟩ := hh'
    have huc := (congrArg Prod.fst hidentity).trans hcell
    exact (hw.anchored.acquire_of_holds hw.weakTable? hu (hreg ▸ huc) _).symm
  · rw [World.weakTable, World.weakTable, Host.weakTable_of_some ht']
    exact hseats

theorem ends_weakHandle (hw : w.Sound R) {v : View}
    (hweak : w.binding.registry.isWeak v.type = true)
    (hsingle : w.Single v) :
    Ends (weakHandle v)
      (fun h? w' ↦ w.Leads R K w' ∧ ∃ h, h? = some h ∧ w.Seated R v h w')
      (fun _ _ ↦ False) w := by
  obtain ⟨handle, h, hgiven, hleads, hseated⟩ := exists_weakHandle? (K := K) hw hweak hsingle
  rw [ends_weakHandle_iff, hgiven]
  exact ⟨hleads, handle, rfl, hseated⟩

/-! ### Pushes -/

/-- The record of a weak object fits the slot of its handle. -/
theorem fits_weak (r : Registry) (h : Handle) (type : Nat)
    (hf : (CacheKey.weak h.index).Faithful r) :
    Record.Fits r ⟨UInt64.ofNat h.index, .declared type, .borrowed, .weak h, none⟩
      (.weak h.index) where
  not_discarded := rfl
  cacheKey := by
    have hindex : (UInt64.ofNat h.index).toNat % 0x100000000 = h.index := by
      have hlt := hf.2
      rw [UInt64.toNat_ofNat']
      omega
    rw [Record.cacheKey]
    simp only [Record.standsForWeak, Record.handle?, Option.isSome_some, Bool.true_or, if_true,
      hindex]
  handle {i} hi := ⟨h, rfl, CacheKey.weak.inj hi⟩

theorem issuable_handle {type : Nat} {h : Handle} (hweak : w.binding.registry.isWeak type = true)
    (hlt : h.serial < w.weakTable.nextSerial) (key : Address) :
    Issuable w ⟨key, .declared type, .borrowed, .weak h, none⟩ where
  proper := ⟨fun _ ↦ ⟨type, rfl, hweak⟩, fun _ ↦ by simp⟩
  serial_lt h' hh' := by
    obtain rfl := Target.weak.inj hh'
    exact hlt

/-- **Recalling a weak object**: the userdata that is remembered for the handle of the object is
found if its record has that handle. -/
theorem keeps_retrieveWeak (hw : w.Sound R) {v : View} {h : Handle}
    (hweak : w.binding.registry.isWeak v.type = true) (hh : w.HandleOf v h) :
    Ends (retrieve (.weak h.index) (rejoin · h v.type))
      (fun found w' ↦ w.Leads R ∅ w' ∧
        (found = true ∧ (∃ id, w.Remembers (.weak h.index) id ∧ w'.host = w.host ∧
            w'.top? = some (.userdata id) ∧ w'.Remembers (.weak h.index) id ∧
            ∃ r, w'.record? id = some r ∧ r.target = .weak h) ∨
          found = false ∧ w'.binding.cache.find? (.weak h.index) = none ∧ w'.host = w.host ∧
            ∀ id, w.Remembers (.weak h.index) id → ∀ r, w.record? id = some r → r.target ≠ .weak h))
      (fun _ _ ↦ False) w := by
  refine keeps_retrieve hw _ fun id hr ↦ ?_
  obtain ⟨r, hid, hfits⟩ := hw.shelf.recorded hr
  have hpushing := World.Leads.quiet (K := ∅) hw (w.quiet_pushing (.userdata id))
  refine (ends_rejoin (K := ∅) hpushing.sound hid hweak (hh.serial_lt hw)).imp
    (fun ok w' hok ↦ ?_) fun _ _ h ↦ h
  rcases hok with ⟨rfl, htarget, hleads, hshown⟩ | ⟨rfl, rfl, hne⟩
  · refine Or.inl ⟨rfl, hleads, hshown.host, hshown.top?.trans (w.top?_pushing _),
      (hshown.remembers _ _).2 hr, ?_⟩
    cases hshown with
    | kept same _ => exact ⟨r, same ▸ hid, htarget⟩
    | changed alters _ _ _ => exact ⟨_, alters.record, rfl⟩
  · refine Or.inr ⟨rfl, Or.inl ⟨rfl, Or.inr fun _ hf ↦ ?_⟩, fun r' hr' ↦ ?_⟩
    · obtain ⟨h', ht', hindex⟩ := (hfits hf).handle rfl
      obtain ⟨c, u, -, -, hu, -⟩ := hh
      exact World.forsaken_of_slot hid ht' hindex hu hne
    · obtain rfl := Option.some.inj (hr'.symm.trans hid)
      exact hne

/-- **Pushing a weak object** leaves a word or a userdata with its handle on the stack. There may be
no room for a userdata that is not known yet. -/
theorem keeps_pushWeak (hw : w.Sound R) {v : View}
    (hweak : w.binding.registry.isWeak v.type = true)
    (hsingle : w.Single v) (habsent : w.binding.cache.find? (.owned (w.rootOf v)) = none) :
    Ends (pushWeak v)
      (fun _ w' ↦ w.Leads R ∅ w' ∧ ∃ x, w'.top? = some x ∧ w.Pushed v w' x)
      (fun _ w' ↦ w.Leads R ∅ w' ∧ w.Unknown v w') w := by
  have hunowned := World.not_remembers_of_find?_eq_none habsent
  simp only [pushWeak, ends_bind, ends_binding]
  refine (ends_weakHandle (K := ∅) hw hweak hsingle).imp (fun h? w₁ hgiven ↦ ?_)
    fun _ _ h ↦ h.elim
  obtain ⟨h₁, h, rfl, hseated⟩ := hgiven
  have hh := hseated.handle
  have hkept := hseated.kept
  have hsound₁ := h₁.sound
  simp only
  split
  · rename_i word hword
    have hlight := Option.ite_none_right_eq_some.1 hword
    exact ⟨h₁.pushing _, _, w₁.top?_pushing _,
      .weakWord hweak hlight.1 (hh.congr rfl rfl rfl) hlight.2⟩
  · have hweak₁ : w₁.binding.registry.isWeak v.type = true := by rwa [hseated.binding]
    simp only [ends_bind]
    refine (keeps_retrieveWeak hsound₁ hweak₁ hh).imp (fun found w₂ hfound ↦ ?_) fun _ _ h ↦ h.elim
    obtain ⟨h₂, ⟨rfl, id, hr, hhost, htop, hthere, r, hrecord, htarget⟩ |
      ⟨rfl, hnone, hhost, hpassed⟩⟩ := hfound
    · have hleads := h₁.trans h₂
      refine ⟨hleads, _, htop, .weak hweak hunowned (hleads.absent (Set.notMem_empty _) habsent)
        (hh.congr hhost h₂.registry h₂.domain) hkept hthere hrecord htarget fun hr' _ _ ↦ ?_⟩
      exact (hseated.remembers.2 hr').unique hr
    · simp only [Bool.false_eq_true, if_false, ends_bind, ends_typeMetatable]
      have hhandle₂ := hh.congr hhost h₂.registry h₂.domain
      have hissue := issuable_handle (h₂.registry ▸ hweak₁) (hhandle₂.serial_lt h₂.sound)
        (UInt64.ofNat h.index)
      have hforgotten : ∀ id', w₂.Remembers (.weak h.index) id' →
          CacheKey.weak h.index ∈ (∅ : Set CacheKey) := fun id' hr ↦
        absurd hr (World.not_remembers_of_find?_eq_none hnone id')
      have hhandle : ∀ {w'}, w₂.Leads R ∅ w' → w'.host = w₂.host → w'.HandleOf v h :=
        fun hl hhost' ↦ hh.congr (hhost'.trans hhost) (hl.registry.trans h₂.registry)
          (hl.domain.trans h₂.domain)
      have hunheld : ∀ {id' r'}, w.Remembers (.weak h.index) id' → w.record? id' = some r' →
          r'.target ≠ .weak h := fun {id' r'} hr' hid' ↦
        hpassed id' (hseated.remembers.2 hr') r' ((hseated.record? id').trans hid')
      refine (keeps_pushNew (K := ∅) h₂.sound hissue (fits_weak _ h v.type) hforgotten
        (fun _ hk ↦ absurd hk (by simp)) _).imp (fun _ w' hnew ↦ ?_) fun _ w' hfull ↦ ?_
      · obtain ⟨h₃, id, hissues, hremembers⟩ := hnew
        have hleads := (h₁.trans h₂).trans h₃
        exact ⟨hleads, _, hissues.top?, .weak hweak hunowned
          (hleads.absent (Set.notMem_empty _) habsent) (hhandle h₃ hissues.host) hkept
          ((hremembers _ _).2 (Or.inl ⟨rfl, rfl⟩)) hissues.record rfl
          fun hr' hid' ht ↦ absurd ht (hunheld hr' hid')⟩
      · exact ⟨(h₁.trans h₂).trans hfull.1, hweak, hunowned, h, hkept, hunheld⟩

/-- The record of a borrowed object that is not weak fits the key of the object. -/
theorem fits_borrowed {r : Registry} {type : Nat} (hweak : r.isWeak type = false)
    (root a : Address) :
    Record.Fits r ⟨root, .declared type, .borrowed, .pointer a, none⟩ (.borrowed root) where
  not_discarded := rfl
  cacheKey := by
    rw [Record.cacheKey]
    simp [Record.standsForWeak, Record.handle?, Record.type?, hweak]
  handle hk := absurd hk (by simp)

theorem issuable_pointer (w : World) (key : Address) (e : Exposed) (o : Ownership) (a : Address)
    (p : Option Payload) : Issuable w ⟨key, e, o, .pointer a, p⟩ :=
  ⟨⟨fun h ↦ absurd h (by simp), fun h ↦ absurd h (by simp)⟩, fun _ h ↦ absurd h (by simp)⟩

/-- **Recalling a borrowed object**: the userdata that is remembered for the root of the object is
found if it shows a comparable type. -/
theorem keeps_retrieveBorrowed (hw : w.Sound R) {v : View}
    (hweak : w.binding.registry.isWeak v.type = false) :
    Ends (retrieve (.borrowed (w.rootOf v)) (reuse · v))
      (fun found w' ↦ w.Leads R ∅ w' ∧
        (found = true ∧ (∃ id, w.Remembers (.borrowed (w.rootOf v)) id ∧
            w'.top? = some (.userdata id) ∧ w'.Remembers (.borrowed (w.rootOf v)) id) ∨
          found = false ∧ w'.binding.cache.find? (.borrowed (w.rootOf v)) = none ∧
            w'.host = w.host ∧ ∀ id, w.Remembers (.borrowed (w.rootOf v)) id →
              ∀ r shown, w.record? id = some r → r.type? = some shown →
                ¬ w.binding.registry.Comparable shown v.type))
      (fun _ _ ↦ False) w := by
  refine keeps_retrieve hw _ fun id hr ↦ ?_
  obtain ⟨r, hid, hfits⟩ := hw.shelf.recorded hr
  have hpushing := World.Leads.quiet (K := ∅) hw (w.quiet_pushing (.userdata id))
  refine (ends_reuse (K := ∅) hpushing.sound hid hweak fun hroots ↦ hfits hroots).imp
    (fun ok w' hok ↦ ?_) fun _ _ h ↦ h
  rcases hok with ⟨rfl, -, hleads, hshown⟩ | ⟨rfl, hunfit, hshown⟩
  · exact Or.inl ⟨rfl, hleads, hshown.top?.trans (w.top?_pushing _), (hshown.remembers _ _).2 hr⟩
  · refine Or.inr ⟨rfl, hunfit, fun r' shown hr' hs ↦ ?_⟩
    obtain rfl := Option.some.inj (hr'.symm.trans hid)
    exact hshown shown hs

/-- **Pushing a borrowed object** leaves a word with its address or a userdata of a comparable type
on the stack. -/
theorem keeps_pushBorrowed (hw : w.Sound R) {v : View}
    (hweak : w.binding.registry.isWeak v.type = false)
    (habsent : w.binding.cache.find? (.owned (w.rootOf v)) = none) :
    Ends (pushBorrowed v (w.rootOf v))
      (fun _ w' ↦ w.Leads R ∅ w' ∧ ∃ x, w'.top? = some x ∧ w.Pushed v w' x)
      (fun _ _ ↦ False) w := by
  have hunowned := World.not_remembers_of_find?_eq_none habsent
  simp only [pushBorrowed, ends_bind, ends_binding]
  split
  · rename_i word hword
    have hlight := Option.ite_none_right_eq_some.1 hword
    exact ⟨(World.Leads.refl hw).pushing _, _, w.top?_pushing _, .word hweak hlight.1 hlight.2⟩
  · simp only [ends_bind]
    refine (keeps_retrieveBorrowed hw hweak).imp (fun found w₁ hfound ↦ ?_) fun _ _ h ↦ h.elim
    obtain ⟨h₁, ⟨rfl, id, hr, htop, hthere⟩ | ⟨rfl, hnone, -, hpassed⟩⟩ := hfound
    · exact ⟨h₁, _, htop, .borrowed hweak hunowned (h₁.absent (Set.notMem_empty _) habsent) hthere
        fun hr' _ _ _ ↦ hr'.unique hr⟩
    · simp only [Bool.false_eq_true, if_false, ends_bind, ends_typeMetatable]
      have hweak₁ : w₁.binding.registry.isWeak v.type = false := by rwa [h₁.registry]
      have hforgotten : ∀ id', w₁.Remembers (.borrowed (w.rootOf v)) id' →
          CacheKey.borrowed (w.rootOf v) ∈ (∅ : Set CacheKey) := fun id' hr ↦
        absurd hr (World.not_remembers_of_find?_eq_none hnone id')
      refine (keeps_pushNew (K := ∅) h₁.sound (issuable_pointer _ _ _ _ _ _)
        (fun _ ↦ fits_borrowed hweak₁ _ _) hforgotten (fun _ hk ↦ absurd hk (by simp)) _).imp
          (fun _ w' hnew ↦ ?_) fun _ _ hfull ↦ ?_
      · obtain ⟨h₂, id, hissues, hremembers⟩ := hnew
        have hleads := h₁.trans h₂
        exact ⟨hleads, _, hissues.top?, .borrowed hweak hunowned
          (hleads.absent (Set.notMem_empty _) habsent) ((hremembers _ _).2 (Or.inl ⟨rfl, rfl⟩))
          fun {id' r' shown} hr' hid' hs hc ↦ absurd hc (hpassed id' hr' r' shown hid' hs)⟩
      · obtain ⟨-, -, index, hk⟩ := hfull
        exact absurd hk (by simp)

end Exec

namespace World

variable {R : Realm} {w w₁ w' : World} {v : View} {x : Value}

/-- What a push has to know of the world before it. -/
structure SameMemory (w w₁ : World) : Prop where
  registry : w₁.binding.registry = w.binding.registry
  settings : w₁.binding.settings = w.binding.settings
  host : w₁.host = w.host
  domain : w₁.binding.domain = w.binding.domain
  record? : ∀ id, w₁.record? id = w.record? id
  remembers : ∀ k id, w₁.Remembers k id ↔ w.Remembers k id

theorem Pushed.of_same (hs : w.SameMemory w₁) (hp : w₁.Pushed v w' x) : w.Pushed v w' x := by
  have hroot : w₁.rootOf v = w.rootOf v := by rw [rootOf, rootOf, hs.registry]
  cases hp with
  | owned there stays => exact .owned (hroot ▸ (hs.remembers _ _).1 there) (hroot ▸ stays)
  | weakWord weak light handle packed =>
    exact .weakWord (hs.registry ▸ weak) (hs.settings ▸ light) handle (hs.registry ▸ packed)
  | weak weak unowned absent handle kept there record target known =>
    rw [hroot] at unowned absent
    refine .weak (hs.registry ▸ weak) (fun id' h ↦ unowned id' ((hs.remembers _ _).2 h)) absent handle
      (fun h' hh ↦ kept h' (hh.congr hs.host hs.registry hs.domain)) there record target
      fun hr hid ht ↦ ?_
    exact known ((hs.remembers _ _).2 hr) ((hs.record? _).trans hid) ht
  | word strong light packed =>
    exact .word (hs.registry ▸ strong) (hs.settings ▸ light) (hs.registry ▸ packed)
  | borrowed strong unowned absent there known =>
    rw [hroot] at unowned absent there
    refine .borrowed (hs.registry ▸ strong) (fun id' h ↦ unowned id' ((hs.remembers _ _).2 h)) absent
      there fun hr hid hshown hc ↦ ?_
    refine known ?_ ((hs.record? _).trans hid) hshown (hs.registry ▸ hc)
    rw [hroot]
    exact (hs.remembers _ _).2 hr

theorem Unknown.of_same (hs : w.SameMemory w₁) (hu : w₁.Unknown v w') : w.Unknown v w' := by
  obtain ⟨weak, unowned, h, kept, unheld⟩ := hu
  have hroot : w₁.rootOf v = w.rootOf v := by rw [rootOf, rootOf, hs.registry]
  rw [hroot] at unowned
  refine ⟨hs.registry ▸ weak, fun id hr ↦ unowned id ((hs.remembers _ _).2 hr), h,
    fun h' hh ↦ kept h' (hh.congr hs.host hs.registry hs.domain),
    fun hr hid ↦ unheld ((hs.remembers _ _).2 hr) ((hs.record? _).trans hid)⟩

/-- Forgetting a key that remembers nothing changes no memory. -/
theorem Sound.sameMemory_forgetting (hw : w.Sound R) {k : CacheKey} {e : CacheEntry}
    (he : w.binding.cache.find? k = some e) (hk : ∀ id, ¬ w.Remembers k id) :
    w.SameMemory (w.forgetting k e) where
  registry := rfl
  settings := rfl
  host := rfl
  domain := rfl
  record? _ := rfl
  remembers k' id := by
    rw [hw.remembers_forgetting he]
    constructor
    · exact fun h ↦ h.2
    · refine fun h ↦ ⟨?_, h⟩
      rintro rfl
      exact hk id h

/-- **No userdata owns the object**, and a key that should have led to one has been forgotten. -/
structure Unclaimed (w : World) (v : View) (w₁ : World) : Prop where
  unowned : ∀ id, ¬ w.Remembers (.owned (w.rootOf v)) id
  absent : w₁.binding.cache.find? (.owned (w₁.rootOf v)) = none
  same : w.SameMemory w₁
  stack : w₁.binding.machine.stack = w.binding.machine.stack
  frames : w₁.binding.machine.frames = w.binding.machine.frames
  forgot : w₁ = w ∨ ∃ e, w.binding.cache.find? (.owned (w.rootOf v)) = some e ∧
    w₁ = w.forgetting (.owned (w.rootOf v)) e

theorem Unclaimed.rootOf_eq (h : w.Unclaimed v w₁) : w₁.rootOf v = w.rootOf v := by
  rw [rootOf, rootOf, h.same.registry]

theorem Unclaimed.isWeak_eq (h : w.Unclaimed v w₁) (type : Nat) :
    w₁.binding.registry.isWeak type = w.binding.registry.isWeak type := by
  rw [h.same.registry]

theorem Unclaimed.single (h : w.Unclaimed v w₁) (hs : w.Single v) : w₁.Single v := by
  rw [Single, weakTable, h.same.host, h.same.domain, h.same.registry]
  exact hs

end World

namespace Exec

variable {R : Realm} {K : Set CacheKey} {w : World}

/-- **The cases of a push**: the userdata that owns the object is pushed, or else the object is pushed as
a weak or as a borrowed one. -/
theorem ends_pushView_cases (hw : w.Sound R) {v : View} {Q : Unit → World → Prop}
    {E : Interrupt → World → Prop}
    (howned : ∀ id, w.Remembers (.owned (w.rootOf v)) id → Q () (w.pushing (.userdata id)))
    (hweak : ∀ w₁, w.Unclaimed v w₁ → w.binding.registry.isWeak v.type = true →
      Ends (pushWeak v) Q E w₁)
    (hborrowed : ∀ w₁, w.Unclaimed v w₁ → w.binding.registry.isWeak v.type = false →
      Ends (pushBorrowed v (w₁.rootOf v)) Q E w₁) :
    Ends (pushView v) Q E w := by
  simp only [pushView, ends_bind, ends_registry]
  refine (ends_retrieve_any hw (.owned (w.rootOf v))).imp (fun found w₁ hfound ↦ ?_)
    fun _ _ h ↦ h.elim
  rcases hfound with ⟨rfl, id, hr, rfl⟩ | ⟨rfl, hnone, hforgot⟩
  · exact howned id hr
  · have hunclaimed : w.Unclaimed v w₁ := by
      rcases hforgot with ⟨rfl, he⟩ | ⟨e, he, rfl⟩
      · exact ⟨hnone, he, ⟨rfl, rfl, rfl, rfl, fun _ ↦ rfl, fun _ _ ↦ Iff.rfl⟩, rfl, rfl, Or.inl rfl⟩
      · refine ⟨hnone, ?_, hw.sameMemory_forgetting he hnone, rfl, rfl, Or.inr ⟨e, he, rfl⟩⟩
        show (w.binding.cache.erase (.owned (w.rootOf v))).find? (.owned (w.rootOf v)) = none
        rw [IdentityCache.find?_erase, if_pos rfl]
    simp only [Bool.false_eq_true, if_false]
    cases htype : w.binding.registry.isWeak v.type with
    | true => exact hweak w₁ hunclaimed htype
    | false =>
      have hkey : (w.binding.registry.root v).address = w₁.rootOf v := hunclaimed.rootOf_eq.symm
      rw [hkey]
      exact hborrowed w₁ hunclaimed htype

/-- **Pushing an object** keeps up what the bridge keeps up, and leaves on the stack what stands for
the object; a weak object of which no userdata is known may find no room. -/
theorem keeps_pushView (hw : w.Sound R) {v : View}
    (hsingle : w.binding.registry.isWeak v.type = true → w.Single v) :
    Ends (pushView v)
      (fun _ w' ↦ w.Leads R ∅ w' ∧ ∃ x, w'.top? = some x ∧ w.Pushed v w' x)
      (fun _ w' ↦ w.Leads R ∅ w' ∧ w.Unknown v w') w := by
  have hleads {w₁ : World} (h : w.Unclaimed v w₁) : w.Leads R ∅ w₁ := by
    rcases h.forgot with rfl | ⟨e, he, rfl⟩
    · exact World.Leads.refl hw
    · exact World.Leads.forget hw he fun id hr ↦ absurd hr (h.unowned id)
  refine ends_pushView_cases hw (fun id hr ↦ ?_) (fun w₁ h hweak ↦ ?_) fun w₁ h hweak ↦ ?_
  · exact ⟨(World.Leads.refl hw).pushing _, _, w.top?_pushing _,
      .owned hr ((w.quiet_pushing _).remembers.2 hr)⟩
  · have h₁ := hleads h
    refine (keeps_pushWeak h₁.sound ((h.isWeak_eq _).trans hweak) (h.single (hsingle hweak))
      h.absent).imp (fun _ w' h' ↦ ?_) fun _ w' h' ↦ ⟨h₁.trans h'.1, h'.2.of_same h.same⟩
    obtain ⟨h₂, x, htop, hp⟩ := h'
    exact ⟨h₁.trans h₂, x, htop, hp.of_same h.same⟩
  · have h₁ := hleads h
    refine (keeps_pushBorrowed h₁.sound ((h.isWeak_eq _).trans hweak) h.absent).imp (fun _ w' h' ↦ ?_)
      fun _ _ h ↦ h.elim
    obtain ⟨h₂, x, htop, hp⟩ := h'
    exact ⟨h₁.trans h₂, x, htop, hp.of_same h.same⟩

end Exec

end ObjectBridge
