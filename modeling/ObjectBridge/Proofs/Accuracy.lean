import ObjectBridge.Proofs.Calling
import ObjectBridge.Proofs.Casting
import ObjectBridge.Proofs.Owning

/-!
# What records say of their objects

A record tells the type and the place of its object, and `Record.Accurate` says in what it can be
relied on. A record with an address is kept under the key of the root of what it shows; one with a
handle shows no type that is more derived than the one its slot records; and what owns something
shows what it owns. A userdata that is remembered for a borrowed object has a record of that object
(`Record.Lodged`), also after casts that have made it one with a handle.

A share alone may be shown as a type derived from its own: that takes a cast of its userdata.
`Accurate` is told for which userdata this is excluded, and says that these are exact.

`World.Advances` adds accuracy to what the bridge keeps up (`World.Leads`), for steps that may give
any key to another userdata; the lemmas say so of the single changes from which such steps are made.
-/

namespace ObjectBridge

namespace Record

variable {w w' : World} {r : Record} {exact : Prop}

/-- What a record with a payload has to show: an object or a container as just what it is, a share
as an object of the type of its block or of one derived from it, and of it if it is `exact`. -/
def Presents (w : World) (exact : Prop) (r : Record) : Payload → Prop
  | .object t a => r.ownership = .owned ∧ r.target = .pointer a ∧
      ∃ type, w.binding.registry.idOf? t = some type ∧ r.exposed = .declared type
  | .share block => r.ownership = .shared ∧ ∃ b type shown, w.host.blocks[block]? = some b ∧
      w.binding.registry.idOf? b.type = some type ∧ r.exposed = .declared shown ∧
      w.binding.registry.isBaseOf type shown = true ∧
      (exact → shown = type ∧ r.target = .pointer b.address)
  | .container kind a => r.ownership = .owned ∧ r.target = .pointer a ∧ r.exposed = .container kind

/-- **What a record says is right**, as far as the bridge can tell. -/
structure Accurate (w : World) (exact : Prop) (r : Record) : Prop where
  /-- The key is that of the root of what is shown. -/
  placed : ∀ {type a}, r.exposed = .declared type → r.target = .pointer a →
    w.rootOf ⟨a, type⟩ = r.key
  /-- The slot records no type of which the shown one is a more derived one. -/
  derived : ∀ {type h u}, r.exposed = .declared type → r.target = .weak h →
    w.weakTable.Holds h.index h.serial u → w.binding.registry.isBaseOf u.type type = true →
    u.type = type
  payload : ∀ {p}, r.payload = some p → r.Presents w exact p

/-- The record of a userdata that is remembered for the borrowed object with a root. -/
structure Lodged (w : World) (root : Address) (r : Record) : Prop where
  ownership : r.ownership = .borrowed
  key : r.key = root
  exposes : ∃ type, r.exposed = .declared type
  /-- A slot by which the object is found records an object with that root. -/
  slot : ∀ {h u}, r.target = .weak h → w.weakTable.Holds h.index h.serial u → w.rootOf u = root

/-- A borrowed object is nothing that is owned. -/
theorem Accurate.payload_eq_none (ha : r.Accurate w exact) (ho : r.ownership = .borrowed) :
    r.payload = none := by
  cases hp : r.payload with
  | none => rfl
  | some p =>
    have hpresents := ha.payload hp
    cases p with
    | object t a | container kind a => exact absurd (ho.symm.trans hpresents.1) (by simp)
    | share block => exact absurd (ho.symm.trans hpresents.1) (by simp)

/-- A record that has been discarded says nothing but what it owns. -/
theorem accurate_discard {p : Option Payload} (hp : p = none) :
    Accurate w exact { r.discard with payload := p } where
  placed _ ht := absurd ht (by simp [discard])
  derived _ ht := absurd ht (by simp [discard])
  payload h := absurd (hp.symm.trans h) (by simp)

theorem Lodged.discard {root : Address} (hl : r.Lodged w root) (p : Option Payload) :
    Lodged w root { r.discard with payload := p } where
  ownership := hl.ownership
  key := hl.key
  exposes := hl.exposes
  slot ht := absurd ht (by simp [Record.discard])

end Record

namespace World

variable {R : Realm} {X : Set Nat} {w w' w'' : World}

/-- **The records of a world are accurate**, and shares exactly so in the userdata in `X`. -/
structure Accurate (w : World) (X : Set Nat) : Prop where
  record : ∀ {id r}, w.record? id = some r → r.Accurate w (id ∈ X)
  lodged : ∀ {root id}, w.Remembers (.borrowed root) id →
    ∃ r, w.record? id = some r ∧ r.Lodged w root

/-- Registry and host are the same. -/
structure SameGround (w w' : World) : Prop where
  registry : w'.binding.registry = w.binding.registry
  domain : w'.binding.domain = w.binding.domain
  host : w'.host = w.host

theorem SameGround.rootOf (hg : w.SameGround w') : w'.rootOf = w.rootOf := by
  funext v
  rw [World.rootOf, World.rootOf, hg.registry]

theorem SameGround.weakTable (hg : w.SameGround w') : w'.weakTable = w.weakTable := by
  rw [World.weakTable, World.weakTable, hg.host, hg.domain]

theorem SameGround.accurate (hg : w.SameGround w') {r : Record} {exact : Prop}
    (ha : r.Accurate w exact) : r.Accurate w' exact where
  placed he ht := by
    rw [hg.rootOf]
    exact ha.placed he ht
  derived he ht hu hbase := by
    rw [hg.weakTable] at hu
    rw [hg.registry] at hbase
    exact ha.derived he ht hu hbase
  payload {p} hp := by
    have hpresents := ha.payload hp
    cases p <;> simpa only [Record.Presents, hg.registry, hg.host] using hpresents

theorem SameGround.lodged (hg : w.SameGround w') {r : Record} {root : Address}
    (hl : r.Lodged w root) : r.Lodged w' root where
  ownership := hl.ownership
  key := hl.key
  exposes := hl.exposes
  slot ht hu := by
    rw [hg.weakTable] at hu
    rw [hg.rootOf]
    exact hl.slot ht hu

/-- **A change of records and of what is remembered**, in which every record is as before or
accurate, and every userdata that is remembered for a borrowed object has a record of it. -/
theorem Accurate.change (ha : w.Accurate X) (hg : w.SameGround w')
    (hrecord : ∀ {id r}, w'.record? id = some r →
      w.record? id = some r ∨ r.Accurate w (id ∈ X))
    (hlodged : ∀ {root id}, w'.Remembers (.borrowed root) id →
      ∃ r, w'.record? id = some r ∧ r.Lodged w root) : w'.Accurate X where
  record hr := hg.accurate ((hrecord hr).elim ha.record fun h ↦ h)
  lodged hm := by
    obtain ⟨r, hr, hl⟩ := hlodged hm
    exact ⟨r, hr, hg.lodged hl⟩

/-- Records are lost, and so is what remembers them. -/
theorem Accurate.lose (ha : w.Accurate X) (hg : w.SameGround w') (hw' : w'.Sound R)
    (hrecord : ∀ {id r}, w'.record? id = some r → w.record? id = some r)
    (hremembers : ∀ {root id}, w'.Remembers (.borrowed root) id → w.Remembers (.borrowed root) id) :
    w'.Accurate X := by
  refine ha.change hg (fun hr ↦ Or.inl (hrecord hr)) fun {root id} hm ↦ ?_
  obtain ⟨r, hr, hl⟩ := ha.lodged (hremembers hm)
  obtain ⟨r', hr', -⟩ := hw'.shelf.recorded hm
  obtain rfl := Option.some.inj (hr.symm.trans (hrecord hr'))
  exact ⟨r, hr', hl⟩

/-- **A change of the host** in which no slot comes to record a less derived type, nor a block
another one. -/
theorem Accurate.host (ha : w.Accurate X) (hw : w.Sound R) (hbinding : w'.binding = w.binding)
    (hfollows : Host.Follows R w.host w'.host) (hgrows : Host.Grows R w.host w'.host)
    (hd : (w'.host.weakTable? w.binding.domain).isSome = true) : w'.Accurate X := by
  obtain ⟨h, pins, binding, desk⟩ := w'
  obtain rfl := hbinding
  obtain ⟨t', ht'⟩ := Option.isSome_iff_exists.1 hd
  have htable : World.weakTable ⟨h, pins, w.binding, desk⟩ = t' := Host.weakTable_of_some ht'
  obtain ⟨t, ht, hfollows⟩ := hfollows _ _ ht'
  obtain ⟨t₀, ht₀, hclimbs⟩ := hgrows.climbs ht'
  obtain rfl := Option.some.inj (hw.weakTable?.symm.trans ht)
  obtain rfl := Option.some.inj (hw.weakTable?.symm.trans ht₀)
  rw [hw.registry] at hfollows hclimbs
  refine ⟨fun {id r} hr ↦ ⟨(ha.record hr).placed, fun {type handle u} he hweak hu hbase ↦ ?_,
    fun {p} hp ↦ ?_⟩, fun {root id} hm ↦ ?_⟩
  · have hlt := hw.binding.serial_lt hr hweak
    rw [htable] at hu
    obtain ⟨u₀, hu₀, hbase₀⟩ := hclimbs.holds hu hlt
    have hs := hw.registrySound
    have hsame : u₀.type = type :=
      (ha.record hr).derived he hweak hu₀ (hs.isBaseOf_trans hbase₀ hbase)
    exact hs.isBaseOf_antisymm hbase (hsame ▸ hbase₀)
  · have hpresents := (ha.record hr).payload hp
    cases p with
    | object t a | container kind a => exact hpresents
    | share block =>
      obtain ⟨hownership, b, type, shown, hb, htype, hrest⟩ := hpresents
      obtain ⟨b', hb', htype', haddress⟩ := hgrows.blocks hb
      exact ⟨hownership, b', type, shown, hb', by rw [htype']; exact htype, by rwa [haddress]⟩
  · obtain ⟨r, hr, hl⟩ := ha.lodged hm
    refine ⟨r, hr, hl.ownership, hl.key, hl.exposes, fun {handle u} hweak hu ↦ ?_⟩
    rw [htable] at hu
    obtain ⟨u₀, hu₀, hidentity⟩ := hfollows.holds hu (hw.binding.serial_lt hr hweak)
    have hroot : w.binding.registry.root u₀ = w.binding.registry.root u :=
      congrArg Prod.snd hidentity
    calc w.rootOf u = w.rootOf u₀ := by rw [rootOf, rootOf, hroot]
      _ = root := hl.slot hweak hu₀

/-! ### Steps -/

/-- **A step that keeps records accurate**, besides what the bridge keeps up. -/
structure Advances (R : Realm) (X : Set Nat) (w w' : World) : Prop where
  leads : w.Leads R Set.univ w'
  accurate : w'.Accurate X
  grows : Host.Grows R w.host w'.host

theorem Advances.refl (hw : w.Sound R) (ha : w.Accurate X) : w.Advances R X w :=
  ⟨.refl hw, ha, .refl _⟩

theorem Advances.trans (h : w.Advances R X w') (h' : w'.Advances R X w'') : w.Advances R X w'' :=
  ⟨h.leads.trans h'.leads, h'.accurate, h.grows.trans h'.grows⟩

theorem Advances.sound (h : w.Advances R X w') : w'.Sound R :=
  h.leads.sound

/-- A step that leaves the host alone has the same ground. -/
theorem Leads.sameGround {K : Set CacheKey} (hl : w.Leads R K w') (hhost : w'.host = w.host) :
    w.SameGround w' :=
  ⟨hl.registry, hl.domain, hhost⟩

/-- A step that leaves the host alone grows nothing. -/
theorem Leads.advances {K : Set CacheKey} (hl : w.Leads R K w') (hhost : w'.host = w.host)
    (ha : w'.Accurate X) : w.Advances R X w' :=
  ⟨hl.mono (Set.subset_univ K), ha, hhost ▸ .refl _⟩

theorem Advances.quiet (hw : w.Sound R) (ha : w.Accurate X) (hq : w.Quiet w')
    (hhost : w'.host = w.host) : w.Advances R X w' :=
  have hl : w.Leads R Set.univ w' := .quiet hw hq
  hl.advances hhost (ha.lose (hl.sameGround hhost) hl.sound
    (fun {id _} hr ↦ (hq.record? id).symm.trans hr) hq.remembers.1)

theorem Advances.pushing (h : w.Advances R X w') (v : Value) : w.Advances R X (w'.pushing v) :=
  h.trans (.quiet h.sound h.accurate (w'.quiet_pushing v) rfl)

theorem Advances.host (hw : w.Sound R) (ha : w.Accurate X) {h : Host}
    (he : Host.Evolves R w.host h) (hg : Host.Grows R w.host h) :
    w.Advances R X { w with host := h } :=
  have hl : w.Leads R Set.univ { w with host := h } := .host hw he
  ⟨hl, ha.host hw rfl hl.follows hg (he.isSome_weakTable? _ hw.binding.isSome_weakTable?), hg⟩

/-- An entry is erased and its reference released. -/
theorem Advances.forget (hw : w.Sound R) (ha : w.Accurate X) {k : CacheKey} {e : CacheEntry}
    (he : w.binding.cache.find? k = some e) : w.Advances R X (w.forgetting k e) :=
  have hl : w.Leads R Set.univ (w.forgetting k e) := .forget hw he fun _ _ ↦ Or.inl trivial
  hl.advances rfl (ha.lose (hl.sameGround rfl) hl.sound (fun hr ↦ hr)
    fun hm ↦ ((hw.remembers_forgetting he).1 hm).2)

/-- **A new userdata with an accurate record**, which may be remembered under a key. -/
theorem Issues.accurate {r : Record} {id : Nat} (hi : w.Issues r w' id) (ha : w.Accurate X)
    (hg : w.SameGround w') (hr : r.Accurate w True)
    (hlodged : ∀ {root id'}, w'.Remembers (.borrowed root) id' →
      w.Remembers (.borrowed root) id' ∨ id' = id ∧ r.Lodged w root) : w'.Accurate X := by
  have hexact : ∀ {exact : Prop}, r.Accurate w exact := fun {exact} ↦
    ⟨hr.placed, hr.derived, fun {p} hp ↦ by
      have hpresents := hr.payload hp
      cases p with
      | object t a | container kind a => exact hpresents
      | share block =>
        obtain ⟨hownership, b, type, shown, hb, htype, he, hbase, hsame⟩ := hpresents
        exact ⟨hownership, b, type, shown, hb, htype, he, hbase, fun _ ↦ hsame trivial⟩⟩
  refine ha.change hg (fun {id' x} hx ↦ ?_) fun {root id'} hm ↦ ?_
  · rw [hi.record?] at hx
    split at hx
    · obtain rfl := Option.some.inj hx
      exact Or.inr hexact
    · exact Or.inl hx
  · rcases hlodged hm with hm | ⟨rfl, hl⟩
    · obtain ⟨x, hx, hl⟩ := ha.lodged hm
      refine ⟨x, ?_, hl⟩
      rw [hi.record?, if_neg]
      · exact hx
      · rintro rfl
        exact absurd (hi.fresh.symm.trans hx) (by simp)
    · exact ⟨r, hi.record, hl⟩

/-- **The record of one userdata changes** to an accurate one, which is one of the borrowed object
that the userdata is remembered for. -/
theorem Alters.accurate {r' : Record} {id : Nat} (hi : w.Alters id r' w') (ha : w.Accurate X)
    (hg : w.SameGround w') (hr : r'.Accurate w (id ∈ X))
    (hlodged : ∀ {root x}, w.Remembers (.borrowed root) id → w.record? id = some x →
      x.Lodged w root → r'.Lodged w root) : w'.Accurate X := by
  refine ha.change hg (fun {id' x} hx ↦ ?_) fun {root id'} hm ↦ ?_
  · rw [hi.record?] at hx
    split at hx
    · rename_i heq
      obtain rfl := Option.some.inj hx
      exact Or.inr (heq ▸ hr)
    · exact Or.inl hx
  · have hm := (hi.remembers _ _).1 hm
    obtain ⟨x, hx, hl⟩ := ha.lodged hm
    rw [hi.record?]
    split
    · rename_i heq
      subst heq
      exact ⟨r', rfl, hlodged hm hx hl⟩
    · exact ⟨x, hx, hl⟩

end World

end ObjectBridge
