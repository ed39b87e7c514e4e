import ObjectBridge.Proofs.MemberAccess
import ObjectBridge.Proofs.RoundTrips
import ObjectBridge.Proofs.Sights

/-!
# Values that display an object

A binding shows an object by a word in which it is packed or by a userdata, and both display the same
`Sight` (`World.Displays`). What displays a sight in order leads to its object, and has the members of the
object (`World.Displays.resolve`, `World.Displays.faces`).

A word is packed anew when it is cast, and a userdata is changed in place; either way the value comes to
display what the cast makes of its sight, and fails as that does (`Exec.ends_castValue_displays`). An
object that the binding has not seen is displayed when it is pushed
(`Exec.ends_pushPointer_unseen`).
-/

namespace ObjectBridge

namespace World

variable {R : Realm} {w w' : World} {s : Sight} {x : Value}

/-- **A value displays a sight**: a word in which it is packed, or a userdata with a record of it and the
metatable of its type. -/
inductive Displays (w : World) (s : Sight) : Value → Prop
  | address {a : Address} {word : UInt64} (light : w.binding.settings.lightUserdata = true)
      (target : s.target = .pointer a) (packed : w.binding.registry.packPointer? s.view = some word) :
      Displays w s (.word word)
  | handle {h : Handle} {word : UInt64} (light : w.binding.settings.lightUserdata = true)
      (target : s.target = .weak h)
      (packed : w.binding.registry.packWeak? h s.view.type = some word) : Displays w s (.word word)
  | userdata {id : Nat} {u : Userdata} {r : Record}
      (there : w.binding.machine.heap.userdata.get? id = some u) (record : u.content = .record r)
      (exposed : r.exposed = .declared s.view.type) (target : r.target = s.target)
      (borrowed : r.ownership ≠ .owned) (metatable : u.metatable = w.typeMetatable? s.view.type) :
      Displays w s (.userdata id)

/-- What displays a sight is a word or a userdata. -/
theorem Displays.word_or_userdata (hx : w.Displays s x) :
    (∃ word, x = .word word ∧ w.binding.settings.lightUserdata = true) ∨
      ∃ id u r, x = .userdata id ∧ w.binding.machine.heap.userdata.get? id = some u ∧
        u.content = .record r ∧ r.exposed = .declared s.view.type ∧ r.ownership ≠ .owned := by
  cases hx with
  | address light target packed => exact Or.inl ⟨_, rfl, light⟩
  | handle light target packed => exact Or.inl ⟨_, rfl, light⟩
  | userdata there record exposed target borrowed metatable =>
    exact Or.inr ⟨_, _, _, rfl, there, record, exposed, borrowed⟩

/-- A sight is in order in a world. -/
abbrev Sees (w : World) (s : Sight) : Prop :=
  s.Clear w.binding.registry w.binding.domain w.host

/-- The record of a userdata that carries one. -/
theorem record?_of_content {id : Nat} {u : Userdata} {r : Record}
    (hu : w.binding.machine.heap.userdata.get? id = some u) (hr : u.content = .record r) :
    w.record? id = some r := by
  simp only [record?, Machine.record?, hu, Option.bind_some, Userdata.record?, hr]

theorem Displays.not_owns (hx : w.Displays s x) : ¬ w.Owns x := by
  rintro ⟨id, r, rfl, hid, howned⟩
  cases hx with
  | userdata there record exposed target borrowed metatable =>
    obtain rfl := Option.some.inj ((record?_of_content there record).symm.trans hid)
    exact borrowed howned

/-- **A value leads to what it shows.** -/
theorem Displays.resolve (hx : w.Displays s x) (hr : w.binding.registry.Sound) (hs : w.Sees s) :
    w.resolve x = .live s.view := by
  have hword {word : UInt64} (hlight : w.binding.settings.lightUserdata = true)
      (h : w.binding.registry.resolveWord? w.weakTable word = some s.view) :
      w.resolve (.word word) = .live s.view := resolve_word.2 ⟨hlight, h⟩
  have hne := hs.packable.ne_zero hr
  cases hs.found with
  | @pointer v t strong unattached table sound room =>
    cases hx with
    | address light target packed =>
      exact hword light (hr.resolveWord?_packPointer packed strong hne _)
    | handle light target packed => exact absurd target (by simp)
    | userdata there record exposed target borrowed metatable =>
      exact resolve_of_pointer (record?_of_content there record) exposed target
  | @weak v handle t c weak cell anchor table holds room =>
    have hholds : w.weakTable.Holds handle.index handle.serial v := by
      rw [weakTable, Host.weakTable_of_some table]
      exact holds
    cases hx with
    | address light target packed => exact absurd target (by simp)
    | handle light target packed =>
      obtain rfl := Target.weak.inj target
      refine hword light ?_
      rw [hr.resolveWord?_packWeak packed weak hholds, if_pos rfl]
    | userdata there record exposed target borrowed metatable =>
      refine (resolve_of_handle (record?_of_content there record) exposed target).2 ⟨rfl, v, hholds, ?_⟩
      exact hr.toSuper?_eq_some_iff.2 ⟨0, hr.mem_views_self _, (Address.up_zero _).symm⟩

/-- **A value has the members of what it shows**, where no member has the name of a metamethod. -/
theorem Displays.faces (hx : w.Displays s x) (hw : w.Equipped) (hr : w.binding.registry.Sound)
    (hnames : w.binding.registry.Unadorned) (hs : w.Sees s) : w.Faces x s.view where
  live := hx.resolve hr hs
  registered := Option.isSome_iff_exists.1 hs.registered
  served := by
    have hword {word : UInt64} (hlight : w.binding.settings.lightUserdata = true) :
        ∃ mt entries, w.binding.machine.metatable? (.word word) = some mt ∧ w.Serves mt entries ∧
          offered entries "__index" = some (.builtin .objectIndex) ∧
          offered entries "__newindex" = some (.builtin .objectNewIndex) := by
      obtain ⟨mt, hmt, hserves⟩ := hw.words hlight
      exact ⟨mt, wordFunctions, hmt, hserves, rfl, rfl⟩
    cases hx with
    | address light target packed => exact hword light
    | handle light target packed => exact hword light
    | userdata there record exposed target borrowed metatable =>
      obtain ⟨d, hd⟩ := Option.isSome_iff_exists.1 hs.registered
      obtain ⟨mt, htype, hserves⟩ := hw.types hd
      refine ⟨mt, _, ?_, hserves, ?_, ?_⟩
      · simp only [Machine.metatable?, Heap.metatable?, there, Option.bind_some, metatable, htype]
      · exact hnames.offered (by decide) s.view.type
      · exact hnames.offered (by decide) s.view.type

/-- A change of userdata, of the identity cache, of the stack and of the host: the tables, the frames and
what the binding is tied to are left alone. -/
structure Stays (w w' : World) : Prop where
  tables : w.KeepsTables w'
  domain : w'.binding.domain = w.binding.domain
  frames : w'.binding.machine.frames = w.binding.machine.frames

theorem Stays.refl (hw : w.binding.machine.heap.strings.Consistent) : w.Stays w :=
  ⟨.refl hw, rfl, rfl⟩

theorem Stays.trans {w'' : World} (h : w.Stays w') (h' : w'.Stays w'') : w.Stays w'' :=
  ⟨h.tables.trans h'.tables, h'.domain.trans h.domain, h'.frames.trans h.frames⟩

theorem Stays.pushing (h : w.Stays w') (x : Value) : w.Stays (w'.pushing x) :=
  ⟨h.tables.trans ⟨rfl, rfl, rfl, rfl, h.tables.strings, fun h ↦ h, fun h ↦ h, fun _ _ ↦ rfl⟩, h.domain,
    h.frames⟩

/-- A change of the table in which the identity cache keeps its userdata. -/
theorem stays_modifyCacheTable (w : World) (hw : w.binding.machine.heap.strings.Consistent)
    (f : Table → Table) (c : IdentityCache) :
    w.Stays (w.withBinding { w.binding.machine with
      heap := w.binding.machine.heap.modifyTable w.binding.tables.cache f } c) := by
  refine ⟨⟨rfl, rfl, rfl, rfl, hw, fun h ↦ h, fun h ↦ h, fun {id} hcache _ ↦ ?_⟩, rfl, rfl⟩
  exact (SlotStore.get?_modify _ _ _ _).trans (if_neg fun h ↦ hcache h.symm)

end World

namespace Exec

variable {w : World} {s : Sight} {x : Value} {target : Nat}

/-- A userdata that shows a base of a type comes to show the type. -/
theorem ends_upgradeView_shown {id shown type : Nat} {u : Userdata} {r : Record} {target : Target}
    (hu : w.binding.machine.heap.userdata.get? id = some u) (hr : u.content = .record r)
    (he : r.exposed = .declared shown) (hne : shown ≠ type)
    (hbase : w.binding.registry.isBaseOf shown type = true) {Q : Unit → World → Prop}
    {E : Interrupt → World → Prop} :
    Ends (upgradeView id type target) Q E w ↔ Q () { w with
      binding.machine := showing w.binding.machine id type target (w.typeMetatable? type) } := by
  have hrecord : w.binding.machine.record? id = some r := World.record?_of_content hu hr
  have htype : r.type? = some shown := Record.type?_eq_some.2 he
  simp only [upgradeView, ends_bind, ends_machine, hrecord, Option.bind_some, htype, ends_registry]
  rw [if_pos ⟨hne, hbase⟩]
  simp only [ends_bind, ends_typeMetatable, ends_modifyMachine]
  rfl

/-- The userdata that shows the type. -/
theorem userdata_showing {m : Machine} {id type : Nat} {u : Userdata} {r : Record} {target : Target}
    (hu : m.heap.userdata.get? id = some u) (hr : u.content = .record r) (metatable : Option Nat) :
    (showing m id type target metatable).heap.userdata.get? id =
      some { u with content := .record (shownAs r type target), metatable := metatable } := by
  simp only [showing, Machine.modifyRecord, Heap.modifyUserdata, SlotStore.get?_modify, if_true, hu,
    Option.map_some, hr]

/-- **A cast down** makes of a value one that displays what the cast makes of its sight, whether it is a
word that is packed anew or a userdata that is changed in place. -/
theorem ends_castDown_displays (hw : w.binding.machine.heap.strings.Consistent)
    (hr : w.binding.registry.Sound) (hlight : w.binding.registry.AllLight) (hs : w.Sees s)
    (hx : w.Displays s x) {a : Address}
    (hother : w.binding.registry.isBaseOf target s.view.type = false)
    (hdown : w.binding.registry.toDerived? w.host.memory s.view target = some a) :
    Ends (castDown x s.view target a)
      (fun y w' ↦ ∃ s', s.cast w.binding.registry w.binding.domain w.host target = .ok (s', w'.host) ∧
        w'.Displays s' y ∧ w.Stays w' ∧ w'.binding.machine.stack = w.binding.machine.stack)
      (fun _ _ ↦ False) w := by
  obtain ⟨hne, hbase, hregistered⟩ := Sight.derived_of_toDerived? hother hr hdown
  have hstays (h : Host) : w.Stays { w with host := h } := ⟨.of_binding hw rfl, rfl, rfl⟩
  rcases hx.word_or_userdata with ⟨word, rfl, hon⟩ | ⟨id, u, r, rfl, hu, hrecord, hexposed, hborrowed⟩
  · simp only [castDown, ends_bind, ends_registry]
    cases hweak : w.binding.registry.isWeak target with
    | true =>
      obtain ⟨handle, h, hgiven, hfound⟩ := hs.found.down hr hother hdown hweak
      obtain ⟨packed, hpacked⟩ := hlight.packWeak? hregistered hfound.index_le
      simp only [if_true, ends_bind, ends_weakHandle_iff, hgiven, ends_pure, hpacked]
      exact ⟨_, Sight.cast_weak hother hdown hweak hgiven, .handle hon rfl hpacked, hstays h, trivial⟩
    | false =>
      obtain ⟨packed, hpacked⟩ := hlight.packPointer? (v := ⟨a, target⟩) hregistered
        (hs.packable.toDerived hr hdown)
      simp only [Bool.false_eq_true, if_false, hpacked]
      exact ⟨_, Sight.cast_strong hother hdown hweak, .address hon rfl hpacked, hstays w.host, rfl⟩
  · -- The userdata is switched to the type, with whatever the host is by then.
    have hshown (h : Host) (t : Target) : World.Displays { w with
        host := h
        binding.machine := showing w.binding.machine id target t (w.typeMetatable? target) }
        ⟨⟨a, target⟩, t⟩ (.userdata id) :=
      .userdata (userdata_showing hu hrecord _) rfl rfl rfl hborrowed rfl
    have hshowing (h : Host) (t : Target) : w.Stays { w with
        host := h
        binding.machine := showing w.binding.machine id target t (w.typeMetatable? target) } :=
      ⟨⟨rfl, rfl, rfl, rfl, hw, fun h ↦ h, fun h ↦ h, fun _ _ ↦ rfl⟩, rfl, rfl⟩
    simp only [castDown, ends_bind, ends_registry]
    cases hweak : w.binding.registry.isWeak target with
    | true =>
      obtain ⟨handle, h, hgiven, hfound⟩ := hs.found.down hr hother hdown hweak
      simp only [if_true, ends_bind, ends_weakHandle_iff, hgiven]
      refine (ends_upgradeView_shown (w := { w with host := h }) hu hrecord hexposed hne hbase).2 ?_
      exact ⟨_, Sight.cast_weak hother hdown hweak hgiven, hshown h _, hshowing h _, rfl⟩
    | false =>
      simp only [Bool.false_eq_true, if_false, ends_bind]
      refine (ends_upgradeView_shown hu hrecord hexposed hne hbase).2 ?_
      exact ⟨_, Sight.cast_strong hother hdown hweak, hshown w.host _, hshowing w.host _, rfl⟩

/-- **A cast makes of a value one that displays what the cast makes of its sight**, and fails as that
does. -/
theorem ends_castValue_displays (hw : w.binding.machine.heap.strings.Consistent)
    (hr : w.binding.registry.Sound) (hlight : w.binding.registry.AllLight) (hs : w.Sees s)
    (hx : w.Displays s x) (target : Nat) :
    Ends (castValue x target)
      (fun y w' ↦ ∃ s', s.cast w.binding.registry w.binding.domain w.host target = .ok (s', w'.host) ∧
        w'.Displays s' y ∧ w.Stays w' ∧ w'.binding.machine.stack = w.binding.machine.stack)
      (fun i w' ↦ w' = w ∧ ∃ f, i = .failure f ∧
        s.cast w.binding.registry w.binding.domain w.host target = .error f) w := by
  have hlive := hx.resolve hr hs
  have hview {v : View} (hv : w.resolve x = .live v) : v = s.view :=
    Resolved.live.inj (hv.symm.trans hlive)
  refine ends_castValue_cases (fun hgone ↦ absurd hlive (hgone _)) (fun hgone ↦ absurd hlive (hgone _))
    (fun v hv hbase ↦ ?_) (fun v a hv _ hother hdown ↦ ?_) fun v hv hother hdown ↦ ?_
  · rw [hview hv] at hbase
    exact ⟨s, Sight.cast_of_isBaseOf hbase, hx, .refl hw, rfl⟩
  · rw [hview hv] at hother hdown ⊢
    exact (ends_castDown_displays hw hr hlight hs hx hother hdown).imp (fun _ _ h ↦ h) fun _ _ h ↦ h.elim
  · rw [hview hv] at hother hdown ⊢
    exact ⟨rfl, _, rfl, Sight.cast_invalid hother (hdown.resolve_left hx.not_owns)⟩

/-- **Recalling what is not remembered** finds nothing, and changes nothing but the table and the entries
of the cache. -/
theorem ends_retrieve_unknown {R : Realm} (hw : w.Sound R)
    (hstrings : w.binding.machine.heap.strings.Consistent) {k : CacheKey}
    (hk : ∀ id, ¬ w.Remembers k id) (fits : Nat → Exec Bool) :
    Ends (retrieve k fits)
      (fun found w' ↦ found = false ∧ w'.Sound R ∧ w'.binding.cache.find? k = none ∧
        (∀ k' id, w'.Remembers k' id ↔ w.Remembers k' id) ∧ w.Stays w' ∧ w'.host = w.host ∧
        w'.binding.machine.stack = w.binding.machine.stack)
      (fun _ _ ↦ False) w := by
  refine ends_retrieve hw (fun hnone ↦ ?_) (fun e he _ ↦ ?_) fun e _ hm ↦ absurd hm (hk _)
  · exact ⟨rfl, hw, hnone, fun _ _ ↦ Iff.rfl, .refl hstrings, rfl, rfl⟩
  · have hleads := World.Leads.forget (K := ∅) hw he fun id hr ↦ absurd hr (hk id)
    refine ⟨rfl, hleads.sound, ?_, (hw.sameMemory_forgetting he hk).remembers,
      w.stays_modifyCacheTable hstrings _ _, rfl, rfl⟩
    show (w.binding.cache.erase k).find? k = none
    rw [IdentityCache.find?_erase, if_pos rfl]

/-- A userdata that is stored under a key without an entry. -/
theorem ends_enrol_borrowed {R : Realm} (hw : w.Sound R) {root : Address}
    (hk : w.binding.cache.find? (.borrowed root) = none) (id : Nat) {Q : Unit → World → Prop}
    {E : Interrupt → World → Prop} :
    Ends (enrol (.borrowed root) id) Q E w ↔ Q () (w.stored (.borrowed root) id) := by
  simp only [enrol, remember, ends_bind, ends_binding, ends_updateMachine, hw.reference_eq id, makeRoom,
    ends_pure, ends_modifyCache, hk]
  rfl

/-- **A new userdata of a borrowed object** is on the stack, with its record and its metatable. -/
theorem ends_pushNew_borrowed {R : Realm} (hw : w.Sound R)
    (hstrings : w.binding.machine.heap.strings.Consistent) {root : Address}
    (hk : w.binding.cache.find? (.borrowed root) = none) (e : Exposed) (o : Ownership) (a : Address)
    (metatable : Option Nat) :
    Ends (pushNew (.borrowed root) ⟨root, e, o, .pointer a, none⟩ metatable)
      (fun _ w' ↦ ∃ id, w.Stays w' ∧ w'.host = w.host ∧
        w'.binding.machine.stack = w.binding.machine.stack.push (.userdata id) ∧
        w'.binding.machine.heap.userdata.get? id =
          some { content := .record ⟨root, e, o, .pointer a, none⟩, metatable := metatable })
      (fun _ _ ↦ False) w := by
  have hcreated : Ends (pushRecord ⟨root, e, o, .pointer a, none⟩ metatable)
      (fun id w₁ ↦ w.Stays w₁ ∧ w₁.host = w.host ∧
        w₁.binding.machine.stack = w.binding.machine.stack.push (.userdata id) ∧
        w₁.binding.cache = w.binding.cache ∧ w₁.binding.machine.heap.userdata.get? id =
          some { content := .record ⟨root, e, o, .pointer a, none⟩, metatable := metatable })
      (fun _ _ ↦ False) w := by
    simp only [pushRecord, ends_bind, ends_updateMachine, ends_push, ends_pure]
    refine ⟨⟨⟨rfl, rfl, rfl, rfl, hstrings, fun h ↦ h, fun h ↦ h, fun _ _ ↦ rfl⟩, rfl, rfl⟩, trivial, rfl,
      trivial, ?_⟩
    exact (hw.binding.userdata.get?_insert _ _).trans (if_pos rfl)
  rw [pushNew, ends_bind]
  refine (hcreated.and (keeps_pushRecord (K := ∅) hw (issuable_pointer w root e o a none) metatable)).imp
    (fun id w₁ h ↦ ?_) fun _ _ h ↦ h.1
  obtain ⟨⟨hstays, hhost, hstack, hcache, hid⟩, hleads, -⟩ := h
  rw [ends_enrol_borrowed hleads.sound (hcache ▸ hk)]
  exact ⟨id, hstays.trans (w₁.stays_modifyCacheTable hstays.tables.strings _ _), hhost, hstack, hid⟩

end Exec

/-! ### Pushing -/

/-- **A binding has not seen an object**: it remembers no userdata for it, and the object has no slot in the
table of weak objects that the binding shares with the others of its registry. -/
structure World.Unseen (w : World) (v : View) : Prop where
  unowned : ∀ id, ¬ w.Remembers (.owned (w.rootOf v)) id
  unborrowed : ∀ id, ¬ w.Remembers (.borrowed (w.rootOf v)) id
  unattached : w.host.Unattached w.binding.registry w.binding.domain v

namespace Exec

variable {R : Realm} {w : World} {v : View}

/-- **An object that has not been seen is displayed when it is pushed**, by a word with its address where
words are made, and by a new userdata otherwise. -/
theorem ends_pushBorrowed_unseen (hw : w.Sound R) (hequipped : w.Equipped)
    (hlight : w.binding.registry.AllLight) (hregistered : (w.binding.registry.get? v.type).isSome = true)
    (hpackable : w.binding.registry.Packable v)
    (hunborrowed : ∀ id, ¬ w.Remembers (.borrowed (w.rootOf v)) id) :
    Ends (pushBorrowed v (w.rootOf v))
      (fun _ w' ↦ ∃ x, w'.Displays ⟨v, .pointer v.address⟩ x ∧ w.Stays w' ∧ w'.host = w.host ∧
        w'.binding.machine.stack = w.binding.machine.stack.push x)
      (fun _ _ ↦ False) w := by
  simp only [pushBorrowed, ends_bind, ends_binding]
  by_cases hon : w.binding.settings.lightUserdata = true
  · obtain ⟨word, hpacked⟩ := hlight.packPointer? hregistered hpackable
    simp only [hon, if_true, hpacked]
    exact ⟨_, .address hon rfl hpacked, (World.Stays.refl hequipped.strings).pushing _, rfl, rfl⟩
  · simp only [hon, Bool.false_eq_true, if_false, ends_bind]
    refine (ends_retrieve_unknown hw hequipped.strings hunborrowed _).imp (fun found w₁ h ↦ ?_) fun _ _ h ↦ h
    obtain ⟨rfl, h₁, habsent, -, hstays, hhost, hstack⟩ := h
    simp only [Bool.false_eq_true, if_false, ends_bind, ends_typeMetatable]
    refine (ends_pushNew_borrowed h₁ hstays.tables.strings habsent _ _ _ _).imp (fun _ w₂ h ↦ ?_) fun _ _ h ↦ h
    obtain ⟨id, hstays', hhost', hstack', hid⟩ := h
    refine ⟨_, .userdata hid rfl rfl rfl (by simp) ?_, hstays.trans hstays', hhost'.trans hhost, hstack'.trans ?_⟩
    · exact (hstays'.tables.typeMetatable? (hequipped.of_keepsTables hstays.tables) v.type).symm
    · rw [hstack]

/-- The same of a push by pointer. -/
theorem ends_pushPointer_unseen (hw : w.Sound R) (hequipped : w.Equipped)
    (hlight : w.binding.registry.AllLight) {a : Address} {t : TypeKey} {type : Nat}
    (exported : w.binding.registry.idOf? t = some type)
    (hregistered : (w.binding.registry.get? type).isSome = true)
    (hstrong : w.binding.registry.isWeak type = false)
    (hpackable : w.binding.registry.Packable ⟨a, type⟩) (hunseen : w.Unseen ⟨a, type⟩) :
    Ends (pushPointer (some a) t)
      (fun _ w' ↦ ∃ x, w'.Displays ⟨⟨a, type⟩, .pointer a⟩ x ∧ w.Stays w' ∧ w'.host = w.host ∧
        w'.binding.machine.stack = w.binding.machine.stack.push x)
      (fun _ _ ↦ False) w := by
  simp only [pushPointer, exportedType, pushView, ends_bind, ends_registry, exported, ends_pure]
  refine (ends_retrieve_unknown hw hequipped.strings hunseen.unowned _).imp (fun found w₁ h ↦ ?_)
    fun _ _ h ↦ h
  obtain ⟨rfl, h₁, -, hremembers, hstays, hhost, hstack⟩ := h
  have hregistry : w₁.binding.registry = w.binding.registry := hstays.tables.registry
  have hroot : (w.binding.registry.root ⟨a, type⟩).address = w₁.rootOf ⟨a, type⟩ := by
    rw [World.rootOf, hregistry]
  simp only [Bool.false_eq_true, if_false, hstrong, hroot]
  refine (ends_pushBorrowed_unseen h₁ (hequipped.of_keepsTables hstays.tables) ?_ ?_ ?_ fun id hr ↦ ?_).imp
    (fun _ w₂ h ↦ ?_) fun _ _ h ↦ h
  · rwa [hregistry]
  · rwa [hregistry]
  · rwa [hregistry]
  · refine hunseen.unborrowed id ?_
    rw [World.rootOf, hroot]
    exact (hremembers _ _).1 hr
  · obtain ⟨x, hx, hstays', hhost', hstack'⟩ := h
    exact ⟨x, hx, hstays.trans hstays', hhost'.trans hhost, hstack'.trans (by rw [hstack])⟩

end Exec

end ObjectBridge
