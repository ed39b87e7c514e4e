import ObjectBridge.Proofs.Starting

/-!
# One userdata for one object

The identity cache of a binding is in order along every run (`World.CacheOrder`). So where no words are
packed, the userdata that a push leaves on the stack represents the object from then on
(`World.Represents`): a later push of any view of the object leaves the same userdata on the stack, as
long as the userdata is there and can show the pushed type (`Session.Sound.shows_again`), and the
userdata is not left on the stack for an object with another root
(`Session.Sound.rootOf_eq_of_shows`).

What keeps a userdata in its place is told by the two ways of losing it: a cycle of the collector that
does not reach it, and another object that is pushed with its ownership at the same address. An object
that is alive has its address for itself, so only the first concerns it.
-/

namespace ObjectBridge

namespace Registry

variable {r : Registry} {u v : View}

/-- The root of an object is one of its views, and its own root. -/
theorem Sound.exists_mem_views_root (hs : r.Sound) (v : View) :
    ∃ offset, ((r.root v).type, offset) ∈ r.views v.type ∧ r.root (r.root v) = r.root v := by
  obtain ⟨⟨top, n⟩, hlast⟩ : ∃ x, (r.views v.type).getLast? = some x := by
    rw [hs.views_eq]
    exact ⟨_, List.getLast?_eq_some_getLast (List.cons_ne_nil _ _)⟩
  have hm : (top, n) ∈ r.views v.type := List.mem_of_getLast? hlast
  have hroot : r.root v = ⟨v.address.up n, top⟩ := by simp only [root, hlast]
  refine ⟨n, by rwa [hroot], ?_⟩
  calc r.root (r.root v) = r.root ⟨v.address.up n, top⟩ := by rw [hroot]
    _ = r.root v := hs.root_eq_of_mem_views hm

/-- Where types become weak at the roots only, an object is weak in all its views or in none. -/
theorem Sound.isWeak_eq_of_root_eq (hs : r.Sound) (hroots : r.WeakAtRoots)
    (h : r.root u = r.root v) : r.isWeak u.type = r.isWeak v.type := by
  have hroot : ∀ v : View, r.isWeak v.type = r.isWeak (r.root v).type := fun v ↦ by
    obtain ⟨n, hn, -⟩ := hs.exists_mem_views_root v
    exact hs.isWeak_eq_of_isBaseOf hroots (isBaseOf_iff.2 ⟨n, hn⟩)
  rw [hroot u, h, ← hroot v]

/-- Where types become weak at the roots only, the views of a weak object have one anchor. -/
theorem Sound.identity_eq_of_root_eq (hs : r.Sound) (hroots : r.WeakAtRoots)
    (h : r.root u = r.root v) (hweak : r.isWeak v.type = true) : r.identity u = r.identity v := by
  have hroot : ∀ v : View, r.isWeak v.type = true → r.identity v = r.identity (r.root v) :=
    fun v hv ↦ by
    obtain ⟨n, hn, hself⟩ := hs.exists_mem_views_root v
    have htop := (hs.isWeak_eq_of_root_eq hroots hself).trans hv
    obtain ⟨c, -, hc⟩ := hs.exists_anchorCell? hv
    exact hs.identity_eq hn hself htop (isSome_of_anchorCell? hc)
  rw [hroot u ((hs.isWeak_eq_of_root_eq hroots h).trans hweak), h, ← hroot v hweak]

/-- No type of the registry is weak. -/
def NoneWeak (r : Registry) : Prop :=
  r.types.all (fun d ↦ !d.isWeak) = true

instance (r : Registry) : Decidable r.NoneWeak :=
  inferInstanceAs (Decidable (_ = true))

theorem NoneWeak.eq_false (h : r.NoneWeak) {type : Nat} {d : Descriptor} (hd : r.get? type = some d) :
    d.isWeak = false := by
  obtain ⟨hlt, rfl⟩ := Array.getElem?_eq_some_iff.1 hd
  simpa using (Array.all_eq_true.1 h) type hlt

theorem NoneWeak.isWeak_eq_false (h : r.NoneWeak) (type : Nat) : r.isWeak type = false := by
  rw [isWeak]
  cases hd : r.get? type with
  | none => rfl
  | some d => exact h.eq_false hd

theorem NoneWeak.weakAtRoots (h : r.NoneWeak) : r.WeakAtRoots :=
  fun hd _ hb ↦ (h.eq_false hd).trans (h.eq_false hb).symm

end Registry

/-- Where types become weak at the roots only, all keys tell the records remembered under them. -/
theorem CacheKey.faithful {r : Registry} (hroots : r.WeakAtRoots) {k : CacheKey}
    (hk : ∀ index, k = .weak index → index < 0x100000000) : k.Faithful r := by
  cases k with
  | borrowed root => exact hroots
  | weak index => exact ⟨hroots, hk index rfl⟩
  | shared | container | owned => trivial

namespace World

variable {R : Realm} {K : Set CacheKey} {L : Set Nat} {w w' : World} {u v : View} {h : Handle}
  {x : Value} {id : Nat}

/-- Two views of one object have one handle. -/
theorem HandleOf.of_identity (hh : w.HandleOf v h)
    (hi : w.binding.registry.identity u = w.binding.registry.identity v) : w.HandleOf u h := by
  obtain ⟨c, known, hc, ha, hknown, hidentity⟩ := hh
  exact ⟨c, known, (congrArg Prod.fst hi).trans hc, ha, hknown, hidentity.trans hi.symm⟩

/-! ### The identity cache -/

/-- **The identity cache of a binding is in order.** -/
structure CacheOrder (w : World) : Prop where
  /-- The table of the cache is there. -/
  table : w.binding.machine.heap.tables.get? w.binding.tables.cache = some w.shelfTable
  /-- No two entries, of the same or of different kinds of keys, have one reference. -/
  distinct : ∀ {k k' e e'}, w.binding.cache.find? k = some e → w.binding.cache.find? k' = some e' →
    e.reference = e'.reference → k = k'
  allocated : ∀ {k e}, w.binding.cache.find? k = some e → w.shelfTable.Allocated e.reference
  /-- Under the reference of an entry, the table has the userdata of the entry or nothing. -/
  slot : ∀ {k e}, w.binding.cache.find? k = some e →
    w.shelfTable.get (.integer e.reference) = .nil ∨
      w.shelfTable.get (.integer e.reference) = .userdata e.userdata
  /-- A userdata that is there under the reference of an entry has a record of the key of the entry,
  and it is not discarded. The number of a slot has 32 bits. -/
  recorded : w.binding.registry.WeakAtRoots → ∀ {k e}, w.binding.cache.find? k = some e →
    (∀ index, k = .weak index → index < 0x100000000) →
    w.shelfTable.get (.integer e.reference) ≠ .nil →
    ∃ r, w.record? e.userdata = some r ∧ r.discarded = false ∧
      r.cacheKey w.binding.registry = k

theorem Sound.cacheOrder (hw : w.Sound R) : w.CacheOrder where
  table := hw.cacheTable.1
  distinct h h' := hw.shelf.reference_inj h h'
  allocated h := hw.shelf.allocated h
  slot h := hw.shelf.slot h
  recorded hroots {k e} h hk hthere := by
    have hm : w.Remembers k e.userdata :=
      Shelf.Remembers.of_find? h ((hw.shelf.slot h).resolve_left hthere)
    obtain ⟨r, hr, hfits⟩ := hw.shelf.recorded hm
    have hfit := hfits (CacheKey.faithful hroots hk)
    exact ⟨r, hr, hfit.not_discarded, hfit.cacheKey⟩

/-! ### What a userdata represents -/

/-- **A userdata represents the object seen as `v`**: it is the one that a push of the object finds. -/
inductive Represents (w : World) (v : View) (id : Nat) : Prop
  | owned (there : w.Remembers (.owned (w.rootOf v)) id)
  | weak {h : Handle} {r : Record} (weak : w.binding.registry.isWeak v.type = true)
      (absent : w.binding.cache.find? (.owned (w.rootOf v)) = none) (handle : w.HandleOf v h)
      (there : w.Remembers (.weak h.index) id) (record : w.record? id = some r)
      (target : r.target = .weak h)
  | borrowed (strong : w.binding.registry.isWeak v.type = false)
      (absent : w.binding.cache.find? (.owned (w.rootOf v)) = none)
      (there : w.Remembers (.borrowed (w.rootOf v)) id)

/-- The userdata that a push leaves on the stack represents the object. -/
theorem Pushed.represents (hp : w.Pushed v w' (.userdata id))
    (hregistry : w'.binding.registry = w.binding.registry) : w'.Represents v id := by
  have hroot : w'.rootOf v = w.rootOf v := by rw [rootOf, rootOf, hregistry]
  cases hp with
  | owned _ stays => exact .owned (hroot ▸ stays)
  | weak weak _ absent handle _ there record target _ =>
    exact .weak (hregistry ▸ weak) (hroot ▸ absent) handle there record target
  | borrowed strong _ absent there _ =>
    exact .borrowed (hregistry ▸ strong) (hroot ▸ absent) (hroot ▸ there)

/-- A userdata shows the type of a view, a base of it, or a type derived from it. -/
def Suits (w : World) (v : View) (id : Nat) : Prop :=
  ∃ r shown, w.record? id = some r ∧ r.discarded = false ∧ r.type? = some shown ∧
    w.binding.registry.Comparable shown v.type

/-- **A push of another view of the object finds the userdata that represents it.** -/
theorem Represents.eq_of_pushed (hr : w.Represents v id) (hw : w.Sound R)
    (hroots : w.binding.registry.WeakAtRoots) (hlight : w.binding.settings.lightUserdata = false)
    (hroot : w.binding.registry.root u = w.binding.registry.root v) (hsuits : w.Suits u id)
    (hp : w.Pushed u w' x) : x = .userdata id := by
  have hkey : w.rootOf u = w.rootOf v := congrArg View.address hroot
  have hweak := hw.registrySound.isWeak_eq_of_root_eq hroots hroot
  cases hp with
  | weakWord _ light => exact absurd (light.symm.trans hlight) (by simp)
  | word _ light => exact absurd (light.symm.trans hlight) (by simp)
  | owned there =>
    rw [hkey] at there
    cases hr with
    | owned there' => rw [there.unique there']
    | weak _ absent | borrowed _ absent => exact absurd there (not_remembers_of_find?_eq_none absent _)
  | weak weak unowned absent handle kept there record target known =>
    rw [hkey] at unowned
    cases hr with
    | owned there' => exact absurd there' (unowned _)
    | borrowed strong => exact absurd ((weak.symm.trans hweak).trans strong) (by simp)
    | weak weak' _ handle' there' record' target' =>
      obtain rfl := kept _ (handle'.of_identity
        (hw.registrySound.identity_eq_of_root_eq hroots hroot weak'))
      rw [known there' record' target']
  | borrowed strong unowned absent there known =>
    rw [hkey] at unowned known
    cases hr with
    | owned there' => exact absurd there' (unowned _)
    | weak weak' => exact absurd ((strong.symm.trans hweak).trans weak') (by simp)
    | borrowed _ _ there' =>
      obtain ⟨r, shown, hid, -, hshown, hcomparable⟩ := hsuits
      rw [known there' hid hshown hcomparable]

/-- A userdata that represents an object is known to a push of the object. -/
theorem Represents.not_unknown (hr : w.Represents v id) (hw : w.Sound R)
    (hroots : w.binding.registry.WeakAtRoots)
    (hroot : w.binding.registry.root u = w.binding.registry.root v) : ¬ w.Unknown u w' := by
  rintro ⟨weak, unowned, h, kept, unheld⟩
  have hkey : w.rootOf u = w.rootOf v := congrArg View.address hroot
  have hweak := hw.registrySound.isWeak_eq_of_root_eq hroots hroot
  rw [hkey] at unowned
  cases hr with
  | owned there => exact unowned _ there
  | borrowed strong => exact absurd ((weak.symm.trans hweak).trans strong) (by simp)
  | weak weak' _ handle there record target =>
    obtain rfl := kept _ (handle.of_identity
      (hw.registrySound.identity_eq_of_root_eq hroots hroot weak'))
    exact unheld there record target

/-! ### Userdata that stay -/

/-- The keys under which a userdata of the object seen as `v` may be remembered. -/
def keysOf (w : World) (v : View) : Set CacheKey :=
  {k | k = .owned (w.rootOf v) ∨ k = .borrowed (w.rootOf v) ∨ ∃ index, k = .weak index}

/-- What is kept of a userdata and of the keys in `K`, from one world of a binding to a later one. -/
structure Retains (R : Realm) (K : Set CacheKey) (id : Nat) (w w' : World) : Prop where
  sound : w'.Sound R
  later : w.Later w'
  settings : w'.binding.settings = w.binding.settings
  ages : ∀ {r}, w.record? id = some r →
    ∃ r', w'.record? id = some r' ∧ r.Ages w.binding.registry r'
  remembers : w.binding.registry.WeakAtRoots → ∀ {k}, k ∈ K → k.Faithful w.binding.registry →
    w.Remembers k id → w'.Remembers k id ∨ w'.Forsaken id
  absent : ∀ {root}, .owned root ∈ K → w.binding.cache.find? (.owned root) = none →
    w'.binding.cache.find? (.owned root) = none

theorem Retains.refl (hw : w.Sound R) : w.Retains R K id w where
  sound := hw
  later := .refl w
  settings := rfl
  ages {r} hr := ⟨r, hr, Record.Ages.refl r⟩
  remembers _ {_} _ _ hm := Or.inl hm
  absent _ ha := ha

theorem Retains.trans {w'' : World} (h : w.Retains R K id w') (h' : w'.Retains R K id w'') :
    w.Retains R K id w'' where
  sound := h'.sound
  later := h.later.trans h'.later
  settings := h'.settings.trans h.settings
  ages hr := by
    obtain ⟨r', hr', ha⟩ := h.ages hr
    obtain ⟨r'', hr'', ha'⟩ := h'.ages hr'
    rw [h.later.registry] at ha'
    exact ⟨r'', hr'', ha.trans ha'⟩
  remembers hroots {k} hk hf hm := by
    have hregistry := h.later.registry
    have hroots' : w'.binding.registry.WeakAtRoots := hregistry ▸ hroots
    rcases h.remembers hroots hk hf hm with hm | hgone
    · exact h'.remembers hroots' hk (hregistry ▸ hf) hm
    · have hfollows := h'.later.follows
      rw [← h.sound.registry] at hfollows
      exact Or.inr (hgone.ages h.sound hroots' hfollows h'.ages)
  absent hk ha := h'.absent hk (h.absent hk ha)

/-- A step retains a userdata that it does not lose, and the keys that it does not give away. -/
theorem Passes.retains {K' : Set CacheKey} (hp : w.Passes R K' L w') (hw : w.Sound R) (hid : id ∉ L)
    (hK : ∀ k ∈ K, k ∉ K') : w.Retains R K id w' where
  sound := hp.sound
  later := hp.later hw
  settings := hp.settings
  ages hr := hp.ages hr (hp.keeps hr hid)
  remembers hroots {k} hk hf hm := hp.remembers hroots (hK k hk) hid hf hm
  absent hk ha := hp.absent (hK _ hk) ha

/-- **A userdata goes on representing an object** as long as it is retained and its record is not
discarded, and the object keeps its handle if it has one. -/
theorem Represents.retained (hr : w.Represents v id) (hw : w.Sound R)
    (hroots : w.binding.registry.WeakAtRoots)
    (hindex : ∀ h, w.HandleOf v h → h.index < 0x100000000)
    (hk : w.Retains R (w.keysOf v) id w') (hattached : ∀ h, w.HandleOf v h → w'.HandleOf v h)
    (hlive : ∃ r, w'.record? id = some r ∧ r.discarded = false) : w'.Represents v id := by
  obtain ⟨r', hr', hlive⟩ := hlive
  have hregistry := hk.later.registry
  have hroot : w'.rootOf v = w.rootOf v := by rw [rootOf, rootOf, hregistry]
  have habsent : w.binding.cache.find? (.owned (w.rootOf v)) = none →
      w'.binding.cache.find? (.owned (w'.rootOf v)) = none := fun ha ↦ by
    rw [hroot]
    exact hk.absent (Or.inl rfl) ha
  have hproper : r'.Proper w.binding.registry := hregistry ▸ hk.sound.binding.proper hr'
  have haged : ∀ {r}, w.record? id = some r → r.Ages w.binding.registry r' := fun {r} hid ↦ by
    obtain ⟨r₁, hr₁, hages⟩ := hk.ages hid
    obtain rfl := Option.some.inj (hr₁.symm.trans hr')
    exact hages
  -- The record is not discarded, so that it is the slot of its object that a key may be lost with.
  have hkept : ∀ {k}, k ∈ w.keysOf v → k.Faithful w.binding.registry → w.Remembers k id →
      (∀ h, r'.target = .weak h → w'.weakTable.resolve h ≠ none) → w'.Remembers k id :=
    fun {k} hmem hf there hslot ↦ by
      refine (hk.remembers hroots hmem hf there).resolve_right fun hgone ↦ ?_
      rcases (forsaken_iff hr').1 hgone with hd | ⟨h, ht, hnone⟩
      · exact absurd (hd.symm.trans hlive) (by simp)
      · exact hslot h ht hnone
  have hkey : ∀ k : CacheKey, k.Faithful w.binding.registry → w.Remembers k id →
      r'.cacheKey w.binding.registry = k := fun k hf there ↦ by
    obtain ⟨r, hid, hfits⟩ := hw.shelf.recorded there
    exact (haged hid).cacheKey hf (hfits hf).cacheKey
  cases hr with
  | owned there =>
    refine .owned (hroot ▸ hkept (Or.inl rfl) trivial there fun h ht ↦ ?_)
    exact absurd (hkey (.owned _) trivial there) (hproper.cacheKey_ne ht _).1
  | @weak h r weak absent handle there record target =>
    have hhandle := hattached h handle
    have htarget : r'.target = .weak h := by
      have hcarries := (haged record).carries ((hw.binding.proper record).carries target)
      refine hcarries.2.resolve_right fun hd ↦ ?_
      exact absurd ((Record.discarded_iff.2 hd).symm.trans hlive) (by simp)
    have hthere := hkept (Or.inr (Or.inr ⟨_, rfl⟩)) ⟨hroots, hindex h handle⟩ there
      fun h' ht hnone ↦ by
        obtain rfl := Target.weak.inj (ht.symm.trans htarget)
        obtain ⟨c, known, -, -, hknown, -⟩ := hhandle
        exact absurd (hnone.symm.trans ((w'.weakTable.resolve_eq_some_iff).2 hknown)) (by simp)
    exact .weak (hregistry ▸ weak) (habsent absent) hhandle hthere hr' htarget
  | borrowed strong absent there =>
    refine .borrowed (hregistry ▸ strong) (habsent absent) ?_
    refine hroot ▸ hkept (Or.inr (Or.inl rfl)) hroots there fun h ht ↦ ?_
    exact absurd (hkey (.borrowed _) hroots there) (hproper.cacheKey_ne ht _).2

/-- The record of a userdata tells which object it represents. -/
theorem Represents.fits (hr : w.Represents v id) (hw : w.Sound R)
    (hroots : w.binding.registry.WeakAtRoots)
    (hindex : ∀ h, w.HandleOf v h → h.index < 0x100000000) :
    ∃ k r, w.record? id = some r ∧ k.Faithful w.binding.registry ∧
      r.cacheKey w.binding.registry = k ∧
      (k = .owned (w.rootOf v) ∨ k = .borrowed (w.rootOf v) ∨
        ∃ h, k = .weak h.index ∧ r.target = .weak h ∧ w.HandleOf v h) := by
  cases hr with
  | owned there =>
    obtain ⟨r, hid, hfits⟩ := hw.shelf.recorded there
    exact ⟨.owned (w.rootOf v), r, hid, trivial, (hfits trivial).cacheKey, Or.inl rfl⟩
  | @weak h r _ _ handle there record target =>
    obtain ⟨r₁, hid, hfits⟩ := hw.shelf.recorded there
    obtain rfl := Option.some.inj (record.symm.trans hid)
    have hfaithful : (CacheKey.weak h.index).Faithful w.binding.registry :=
      ⟨hroots, hindex h handle⟩
    exact ⟨_, r, hid, hfaithful, (hfits hfaithful).cacheKey, Or.inr (Or.inr ⟨h, rfl, target, handle⟩)⟩
  | borrowed _ _ there =>
    obtain ⟨r, hid, hfits⟩ := hw.shelf.recorded there
    exact ⟨.borrowed (w.rootOf v), r, hid, hroots, (hfits hroots).cacheKey, Or.inr (Or.inl rfl)⟩

/-- **A userdata represents objects with one root only**, as long as it is retained. -/
theorem Represents.rootOf_eq (hr : w.Represents v id) (hr' : w'.Represents u id) (hw : w.Sound R)
    (hroots : w.binding.registry.WeakAtRoots)
    (hindex : ∀ h, w.HandleOf v h → h.index < 0x100000000)
    (hindex' : ∀ h, w'.HandleOf u h → h.index < 0x100000000) (hk : w.Retains R K id w') :
    w'.rootOf u = w.rootOf v := by
  have hregistry := hk.later.registry
  obtain ⟨k, r, hid, hfaithful, hkey, hkind⟩ := hr.fits hw hroots hindex
  obtain ⟨k', r', hid', -, hkey', hkind'⟩ := hr'.fits hk.sound (hregistry ▸ hroots) hindex'
  obtain ⟨r₁, hr₁, hages⟩ := hk.ages hid
  obtain rfl := Option.some.inj (hr₁.symm.trans hid')
  rw [hregistry] at hkey'
  obtain rfl : k = k' := (hages.cacheKey hfaithful hkey).symm.trans hkey'
  rcases hkind with rfl | rfl | ⟨h, rfl, htarget, hhandle⟩
  · simpa [eq_comm] using hkind'
  · simpa [eq_comm] using hkind'
  · obtain ⟨h', -, htarget', hhandle'⟩ := (hkind'.resolve_left (by simp)).resolve_left (by simp)
    -- one record has one handle, and its serial is of one object
    have hcarries := hages.carries ((hw.binding.proper hid).carries htarget)
    obtain rfl : h' = h := by
      rcases hcarries.2 with ht | ht
      · exact Target.weak.inj (htarget'.symm.trans ht)
      · exact absurd (htarget'.symm.trans ht) (by simp)
    have hlt := hhandle.serial_lt hw
    obtain ⟨_, a, -, -, ha, hida⟩ := hhandle
    obtain ⟨_, b, -, -, hb, hidb⟩ := hhandle'
    obtain ⟨a', ha', hsame⟩ := hk.later.follows.holds hb hlt
    obtain rfl := (ha.unique ha').2
    rw [hregistry] at hidb
    have hroot : w.binding.registry.root u = w.binding.registry.root v :=
      calc w.binding.registry.root u
          = w.binding.registry.root b := (congrArg Prod.snd hidb).symm
        _ = w.binding.registry.root a := (congrArg Prod.snd hsame).symm
        _ = w.binding.registry.root v := congrArg Prod.snd hida
    rw [rootOf, rootOf, hregistry, hroot]

/-! ### Events that show an object -/

variable {o : Event}

/-- The events that show the object seen as `v`: pushes of the object, and pushes of it with its
ownership. -/
inductive ShownBy (w : World) (v : View) : Event → Prop
  | pointer {t : TypeKey} (exported : w.binding.registry.idOf? t = some v.type) :
    ShownBy w v (.pushPointer (some v.address) t)
  | owned {t : TypeKey} (exported : w.binding.registry.idOf? t = some v.type)
      (sized : (w.host.catalogue.declaration t).size ≠ 0) : ShownBy w v (.pushOwned t v.address)

/-- An event leaves a userdata on the stack for the object seen as `v`. -/
structure Shows (w : World) (o : Event) (v : View) (id : Nat) : Prop where
  shown : w.ShownBy v o
  done : (o.perform.outcome w).1 = .ok ()
  top : (o.after w).top? = some (.userdata id)

/-- **A userdata that is shown for an object represents it.** -/
theorem Shows.represents (hs : w.Shows o v id) (hw : w.Sound R) (ho : o.Allowed w) :
    (o.after w).Represents v id := by
  obtain ⟨shown, done, top⟩ := hs
  have hdone : o.perform.outcome w = (.ok (), o.after w) := Prod.ext done rfl
  cases shown with
  | pointer exported =>
    have hends := Exec.ends_pushPointer hw exported fun hweak ↦ ho _ _ rfl exported hweak
    obtain ⟨hl, y, htop, hp⟩ := hends.ok hdone
    obtain rfl := Option.some.inj (top.symm.trans htop)
    exact hp.represents hl.registry
  | @owned t exported sized =>
    have hends := Exec.keeps_pushOwned (K := (Event.pushOwned t v.address).claims w) hw t v.address
      fun type ht hsize ↦ ⟨type, ht, hsize, rfl⟩
    obtain ⟨hl, type, id', htype, htop, -, hthere⟩ := hends.ok hdone
    obtain rfl := Option.some.inj (exported.symm.trans htype)
    obtain rfl := Value.userdata.inj (Option.some.inj (top.symm.trans htop))
    refine .owned ?_
    rw [rootOf, hl.registry]
    exact hthere sized

/-- **A push of an object leaves the userdata on the stack that represents the object**, if that one
can show the pushed type. -/
theorem Represents.shows (hr : w.Represents v id) (hw : w.Sound R)
    (hroots : w.binding.registry.WeakAtRoots) (hlight : w.binding.settings.lightUserdata = false)
    {t : TypeKey} (exported : w.binding.registry.idOf? t = some u.type)
    (hroot : w.binding.registry.root u = w.binding.registry.root v) (hsuits : w.Suits u id)
    (ho : (Event.pushPointer (some u.address) t).Allowed w) :
    w.Shows (.pushPointer (some u.address) t) u id := by
  have hends := Exec.ends_pushPointer hw exported fun hweak ↦ ho _ _ rfl exported hweak
  rcases hx : (Exec.pushPointer (some u.address) t).outcome w with ⟨i | ⟨⟩, w'⟩
  · exact absurd (hends.error hx).2 (hr.not_unknown hw hroots hroot)
  · obtain ⟨-, x, htop, hp⟩ := hends.ok hx
    obtain rfl := hr.eq_of_pushed hw hroots hlight hroot hsuits hp
    have hafter : (Event.pushPointer (some u.address) t).after w = w' := congrArg Prod.snd hx
    exact ⟨.pointer exported, congrArg Prod.fst hx, hafter ▸ htop⟩

end World

namespace Session

variable {R : Realm} {K : Set CacheKey} {s s' s₁ : Session} {k id : Nat} {w w' : World}
  {u v : View} {o o₁ : Event}

/-! ### Runs that spare a userdata -/

/-- The condition that a userdata of a binding is not lost, and that no key in `K` is given to another
one. -/
def Spares (k id : Nat) (K : Set CacheKey) (s : Session) (m : Move) : Prop :=
  id ∉ s.losses k m ∧ ∀ key ∈ K, key ∉ s.claims k m

/-- **A run that spares a userdata retains it.** -/
theorem Run.retains (hr : Run (Spares k id K) s s') (hs : s.Sound R) (hw : s.seen k = some w) :
    ∃ w', s'.seen k = some w' ∧ w.Retains R K id w' := by
  induction hr with
  | refl => exact ⟨w, hw, .refl (hs.seen hw)⟩
  | step run allowed spares ih =>
    obtain ⟨w₁, hw₁, hk⟩ := ih
    have hs₁ := run.sound hs
    obtain ⟨w', hw', hp⟩ := hs₁.move allowed hw₁
    exact ⟨w', hw', hk.trans (hp.retains (hs₁.seen hw₁) spares.1 spares.2)⟩

/-- Keys of borrowed and of weak objects are given to no other userdata. -/
theorem not_mem_claims (s : Session) (k : Nat) (m : Move) :
    (∀ root, .borrowed root ∉ s.claims k m) ∧ ∀ index, .weak index ∉ s.claims k m := by
  cases m with
  | happen o => cases o <;> simp [claims, Event.claims]
  | pass | turn => simp [claims]

/-- To retain a userdata of an object, it is enough that no other object is pushed with its ownership at
the address of the root. -/
theorem Run.spares_keysOf (hr : Run (Spares k id {.owned (w.rootOf v)}) s s') :
    Run (Spares k id (w.keysOf v)) s s' := by
  refine hr.mono fun s m hspares ↦ ⟨hspares.1, ?_⟩
  rintro key (rfl | rfl | ⟨index, rfl⟩)
  · exact hspares.2 _ rfl
  · exact (s.not_mem_claims k m).1 _
  · exact (s.not_mem_claims k m).2 _

/-- **A later push finds the userdata that was shown.** -/
theorem Sound.shows_again (hs : s.Sound R) (ho : o.Allowed s.world) (hx : s.world.Shows o v id)
    (hroots : s.world.binding.registry.WeakAtRoots)
    (hlight : s.world.binding.settings.lightUserdata = false)
    (hindex : ∀ h, (o.after s.world).HandleOf v h → h.index < 0x100000000)
    (hr : Run (Spares s.current id {.owned (s.world.rootOf v)}) (s.move (.happen o)) s₁)
    (hcurrent : s₁.current = s.current) {t : TypeKey}
    (exported : s.world.binding.registry.idOf? t = some u.type)
    (hroot : s.world.binding.registry.root u = s.world.binding.registry.root v)
    (hattached : ∀ h, (o.after s.world).HandleOf v h → s₁.world.HandleOf v h)
    (hsuits : s₁.world.Suits u id) (hu : (Event.pushPointer (some u.address) t).Allowed s₁.world) :
    s₁.world.Shows (.pushPointer (some u.address) t) u id := by
  have hmove : s.Allows (.happen o) := ho
  have hs' := hs.after_move hmove
  have hp := o.passes hs.world ho
  have hregistry := hp.registry
  have hrootOf : (o.after s.world).rootOf v = s.world.rootOf v := by
    rw [World.rootOf, World.rootOf, hregistry]
  have hcall : (s.move (.happen o)).seen s.current = some (o.after s.world) :=
    (s.move (.happen o)).seen_current
  rw [← hrootOf] at hr
  obtain ⟨w₁, hw₁, hk⟩ := hr.spares_keysOf.retains hs' hcall
  obtain rfl : w₁ = s₁.world :=
    Option.some.inj (hw₁.symm.trans (hcurrent ▸ s₁.seen_current))
  have hroots' : (o.after s.world).binding.registry.WeakAtRoots := hregistry ▸ hroots
  have hregistry₁ : s₁.world.binding.registry = s.world.binding.registry :=
    hk.later.registry.trans hregistry
  have hshown := hsuits
  obtain ⟨r, shown, hid, hlive, -⟩ := hshown
  have hrepresents := (hx.represents hs.world ho).retained hp.sound hroots' hindex hk hattached
    ⟨r, hid, hlive⟩
  refine hrepresents.shows hk.sound ?_ ?_ ?_ ?_ hsuits hu
  · exact hregistry₁ ▸ hroots
  · exact (hk.settings.trans hp.settings) ▸ hlight
  · exact hregistry₁ ▸ exported
  · exact hregistry₁ ▸ hroot

/-- **A userdata is shown for objects with one root only**, as long as it is there. -/
theorem Sound.rootOf_eq_of_shows (hs : s.Sound R) (ho : o.Allowed s.world)
    (hx : s.world.Shows o v id) (hroots : s.world.binding.registry.WeakAtRoots)
    (hindex : ∀ h, (o.after s.world).HandleOf v h → h.index < 0x100000000)
    (hr : Run (Spares s.current id ∅) (s.move (.happen o)) s₁) (hcurrent : s₁.current = s.current)
    (ho₁ : o₁.Allowed s₁.world) (hx₁ : s₁.world.Shows o₁ u id)
    (hindex₁ : ∀ h, (o₁.after s₁.world).HandleOf u h → h.index < 0x100000000) :
    s.world.rootOf u = s.world.rootOf v := by
  have hmove : s.Allows (.happen o) := ho
  have hs' := hs.after_move hmove
  have hp := o.passes hs.world ho
  have hcall : (s.move (.happen o)).seen s.current = some (o.after s.world) :=
    (s.move (.happen o)).seen_current
  obtain ⟨w₁, hw₁, hk⟩ := hr.retains hs' hcall
  obtain rfl : w₁ = s₁.world :=
    Option.some.inj (hw₁.symm.trans (hcurrent ▸ s₁.seen_current))
  have hp₁ := o₁.passes hk.sound ho₁
  have hspared : id ∉ o₁.losses s₁.world := by
    cases hx₁.shown <;> exact Set.notMem_empty id
  have hk' := hk.trans (hp₁.retains hk.sound hspared fun key hkey ↦ absurd hkey (by simp))
  have hroots' : (o.after s.world).binding.registry.WeakAtRoots := hp.registry ▸ hroots
  have heq := (hx.represents hs.world ho).rootOf_eq (hx₁.represents hk.sound ho₁) hp.sound hroots'
    hindex hindex₁ hk'
  rwa [World.rootOf, World.rootOf, hk'.later.registry, hp.registry] at heq

/-- **One userdata for one object.** Start a session with any number of bindings, and let anything
happen to it. The identity caches of all bindings are in order. And where types become weak at the
roots only and no words are packed, a userdata that is shown for an object stays that of the object: as
long as the userdata is not lost, no other object takes the address of the root, and the object keeps
its handle if it has one, a push of any view of the object leaves that userdata on the stack if it can
show the pushed type. As long as it is not lost, it is not shown for an object with another root. -/
theorem one_userdata {c : Catalogue} {registries : List (List PlanStep)} {plans : List BindingPlan}
    (hne : plans ≠ []) (hplans : ∀ p ∈ plans, p.registry < registries.length) {s₀ : Session}
    (hstart : start c registries plans = .ok s₀) (before : Run (fun _ _ ↦ True) s₀ s) :
    (∀ {k w}, s.seen k = some w → w.CacheOrder) ∧
      ∀ {o v id}, o.Allowed s.world → s.world.Shows o v id →
        s.world.binding.registry.WeakAtRoots → s.world.binding.settings.lightUserdata = false →
        (∀ h, (o.after s.world).HandleOf v h → h.index < 0x100000000) →
        (∀ {s₁ u t}, Run (Spares s.current id {.owned (s.world.rootOf v)}) (s.move (.happen o)) s₁ →
          s₁.current = s.current → s.world.binding.registry.idOf? t = some u.type →
          s.world.binding.registry.root u = s.world.binding.registry.root v →
          (∀ h, (o.after s.world).HandleOf v h → s₁.world.HandleOf v h) → s₁.world.Suits u id →
          (Event.pushPointer (some u.address) t).Allowed s₁.world →
          s₁.world.Shows (.pushPointer (some u.address) t) u id) ∧
        ∀ {s₁ o₁ u}, Run (Spares s.current id ∅) (s.move (.happen o)) s₁ → s₁.current = s.current →
          o₁.Allowed s₁.world → s₁.world.Shows o₁ u id →
          (∀ h, (o₁.after s₁.world).HandleOf u h → h.index < 0x100000000) →
          s.world.rootOf u = s.world.rootOf v := by
  have hs := before.sound (sound_start hne hplans hstart)
  refine ⟨fun {k w} hw ↦ (hs.seen hw).cacheOrder, fun {o v id} ho hx hroots hlight hindex ↦ ⟨?_, ?_⟩⟩
  · intro s₁ u t hr hcurrent exported hroot hattached hsuits hu
    exact hs.shows_again ho hx hroots hlight hindex hr hcurrent exported hroot hattached hsuits hu
  · intro s₁ o₁ u hr hcurrent ho₁ hx₁ hindex₁
    exact hs.rootOf_eq_of_shows ho hx hroots hindex hr hcurrent ho₁ hx₁ hindex₁

/-- Two types, one of them derived from the other; no objects are weak. -/
def actors : Catalogue where
  types := #[{ name := "Figure", size := 16 }, { name := "Actor", size := 24, base := some ⟨0, 8⟩ }]
  bases_first := by decide

/-- A session with a binding to a registry of actors, which packs no words. -/
@[irreducible]
def stage : Session :=
  match start actors [[.create 1]] [{ settings := { lightUserdata := false } }] with
  | .ok s => s
  | .error _ => {}

theorem start_actors :
    start actors [[.create 1]] [{ settings := { lightUserdata := false } }] = .ok stage := by
  have hok : (match start actors [[.create 1]] [{ settings := { lightUserdata := false } }] with
    | .ok _ => true
    | .error _ => false) = true := by decide +kernel
  rw [stage]
  cases h : start actors [[.create 1]] [{ settings := { lightUserdata := false } }] with
  | ok s => rfl
  | error f => simp [h] at hok

/-- An actor is shown as a figure; after a cycle of the collector, the actor is shown as such, by the
same userdata. -/
theorem one_userdata_actor :
    ((stage.move (.happen (.pushPointer (some 0x1008) 0))).move (.happen .sweep)).world.Shows
      (.pushPointer (some 0x1000) 1) ⟨0x1000, 1⟩ 0 := by
  let shown := (Event.pushPointer (some 0x1008) 0).after stage.world
  let s := stage.move (.happen (.pushPointer (some 0x1008) 0))
  let s' := s.move (.happen .sweep)
  have hfacts : (stage.world.binding.registry.NoneWeak ∧ stage.world.binding.registry.idOf? 0 = some 0 ∧
      stage.world.binding.registry.idOf? 1 = some 1 ∧
      stage.world.binding.registry.root ⟨0x1000, 1⟩ = stage.world.binding.registry.root ⟨0x1008, 0⟩ ∧
      stage.world.binding.settings.lightUserdata = false) ∧
      ((Event.pushPointer (some 0x1008) 0).perform.outcome stage.world).1 = .ok () ∧
      (shown.top? = some (.userdata 0) ∧ shown.binding.registry.anchorCell? ⟨0x1008, 0⟩ = none ∧
        .userdata 0 ∈ (Exec.flushed s.world).binding.machine.roots.filterMap Value.ref?) ∧
      s'.current = stage.current ∧ s'.world.binding.registry.NoneWeak ∧
      s'.world.binding.registry.isBaseOf 0 1 = true ∧
      (s'.world.record? 0).map (fun r ↦ (r.discarded, r.type?)) = some (false, some 0) := by
    decide +kernel
  obtain ⟨⟨hnone, hfigure, hactor, hroot, hlight⟩, hdone, ⟨htop, hanchor, hrooted⟩, hcurrent, hnone', hbase,
    hrecord⟩ := hfacts
  have hallowed {w : World} (hw : w.binding.registry.NoneWeak) (a : Option Address) (t : TypeKey) :
      (Event.pushPointer a t).Allowed w := fun _ type _ _ hweak ↦ by
    rw [hw.isWeak_eq_false] at hweak
    exact absurd hweak (by simp)
  have hshows : stage.world.Shows (.pushPointer (some 0x1008) 0) ⟨0x1008, 0⟩ 0 :=
    ⟨.pointer hfigure, hdone, htop⟩
  have hhandle : ∀ h, ¬ shown.HandleOf ⟨0x1008, 0⟩ h := by
    rintro h ⟨c, -, hc, -⟩
    exact absurd (hanchor.symm.trans hc) (by simp)
  obtain ⟨-, hone⟩ := one_userdata (by decide) (by decide) start_actors (.refl _)
  obtain ⟨hagain, -⟩ := hone (hallowed hnone _ _) hshows hnone.weakAtRoots hlight
    fun h hh ↦ absurd hh (hhandle h)
  have hswept : Run (Spares stage.current 0 {.owned (stage.world.rootOf ⟨0x1008, 0⟩)}) s s' := by
    refine .step (.refl _) trivial ⟨?_, fun key _ hkey ↦ hkey.2⟩
    rintro ⟨-, hlost⟩
    exact hlost (.root hrooted)
  obtain ⟨r, hr, hshown⟩ := Option.map_eq_some_iff.1 hrecord
  have hsuits : s'.world.Suits ⟨0x1000, 1⟩ 0 :=
    ⟨r, 0, hr, congrArg Prod.fst hshown, congrArg Prod.snd hshown, Or.inl hbase⟩
  exact hagain (u := ⟨0x1000, 1⟩) (t := 1) hswept hcurrent hactor hroot
    (fun h hh ↦ absurd hh (hhandle h)) hsuits (hallowed hnone' _ _)

end Session

end ObjectBridge
