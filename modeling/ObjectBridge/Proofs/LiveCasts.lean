import ObjectBridge.Proofs.RoundTrips

/-!
# What casts lead to

A cast that does not fail leaves nil for a value that leads to no object, and otherwise a value that
leads to the same object as the target or as something more derived, unless `World.Misses` holds
(`Exec.ends_castValue`). A cast misses an object that is weak as the target when the object has been
seen, through this binding or another one, as something that has nothing to do with the target: the
slot of the object goes on recording that, while the userdata is switched to the target all the same
(`Session.not_cast_leadsTo`).

A cast changes little besides (`World.Recasts`): a slot records what it recorded, or the target, and
the only record that changes is that of the userdata which was cast. So a cast that does not miss
its object obscures nothing of a type that is comparable to the target (`World.Obscured.of_recasts`),
and what was pushed before can be pushed again.
-/

namespace ObjectBridge

/-! ### Slots -/

namespace WeakTable

variable {t t' : WeakTable} {v : View}

/-- An object has been seen as `v`: every occupied slot stays occupied, and one that records
something else than before records `v`. -/
structure Admits (t : WeakTable) (v : View) (t' : WeakTable) : Prop where
  stays : ∀ {i n u}, t.Holds i n u → ∃ u', t'.Holds i n u'
  holds : ∀ {i n u}, t'.Holds i n u → t.Holds i n u ∨ u = v

theorem Admits.refl (t : WeakTable) (v : View) : t.Admits v t :=
  ⟨fun {_ _ u} hu ↦ ⟨u, hu⟩, fun hu ↦ Or.inl hu⟩

theorem Sound.admits_allocate (ht : t.Sound) (v : View) : t.Admits v (t.allocate v) where
  stays {_ _ u} hu := ⟨u, ht.holds_allocate.2 (Or.inr hu)⟩
  holds hu := (ht.holds_allocate.1 hu).elim (fun h ↦ Or.inr h.2.2) Or.inl

theorem admits_upgrade {i n : Nat} {u : View} (hi : t.Holds i n u) (v : View) :
    t.Admits v (t.upgrade i v) where
  stays {j m u'} hu' := by
    by_cases hj : j = i
    · subst hj
      exact ⟨v, (holds_upgrade hi).2 (Or.inl ⟨rfl, (hu'.unique hi).1, rfl⟩)⟩
    · exact ⟨u', (holds_upgrade hi).2 (Or.inr ⟨hj, hu'⟩)⟩
  holds hu' := ((holds_upgrade hi).1 hu').elim (fun h ↦ Or.inr h.2.2) fun h ↦ Or.inl h.2

end WeakTable

namespace Host

variable {R : Realm} {h : Host} {v : View}

theorem admits_weakAcquire {t : WeakTable} (ht : t.Sound) (r : Registry) (slot : Option Nat)
    (v : View) : t.Admits v (weakAcquire r t slot v).2 := by
  have hacquires := acquires_weakAcquire r t slot v
  generalize weakAcquire r t slot v = result at hacquires ⊢
  cases hacquires with
  | upgraded _ holds _ _ => exact WeakTable.admits_upgrade holds v
  | kept => exact .refl t v
  | allocated => exact ht.admits_allocate v

/-- Seeing a weak object leaves the slots of the other objects alone. -/
theorem Anchored.admits_acquire (ha : h.Anchored R) {d : Nat} {t : WeakTable}
    (ht : h.weakTable? d = some t) (c : Address) (v : View) :
    t.Admits v ((h.acquire (R.registry d) d c v).2.weakTable d) := by
  have hentered : ∀ {h₁ : Host} (result : Handle × WeakTable), h₁.weakTable? d = some t →
      (h₁.enter d c result).2.weakTable d = result.2 := fun {h₁} result ht₁ ↦
    weakTable_of_some ((weakTable?_setWeakTable ht₁ _ _).trans (if_pos rfl))
  by_cases hattached : (h.memory.anchor c).owner = some d
  · rw [acquire_attached hattached (by rw [ht]; rfl), hentered _ ht, weakTable_of_some ht]
    exact admits_weakAcquire (ha.sound ht) _ _ v
  · -- the slot that the anchor gives back is one of another registry
    have ht₁ : (h.detach c).weakTable? d = some t := (weakTable?_detach_of_ne hattached).trans ht
    rw [acquire_not_attached hattached, hentered _ ht₁, weakTable_of_some ht₁]
    exact admits_weakAcquire (ha.sound ht) _ _ v

end Host

namespace World

variable {R : Realm} {w w' : World} {u v : View} {x y : Value} {target : Nat} {P : Prop}

/-! ### Values and their objects -/

/-- **A value leads to the object seen as `v`**, as a type or as one derived from it. -/
def LeadsTo (w : World) (x : Value) (v : View) (type : Nat) : Prop :=
  ∃ u, w.resolve x = .live u ∧ w.binding.registry.root u = w.binding.registry.root v ∧
    w.binding.registry.isBaseOf type u.type = true

/-- A value is loaded as a type exactly if it leads to the object as that type. -/
theorem LoadsIf.leadsTo_iff (hl : w.LoadsIf x v P) (hw : w.Sound R) :
    w.LeadsTo x v v.type ↔ P := by
  have hs := hw.registrySound
  have hloads : P ↔ ∃ u, w.resolve x = .live u ∧
      w.binding.registry.toSuper? u v.type = some v.address := by
    rw [← loadAs?_eq_some, hl]
    exact (and_iff_right rfl).symm
  rw [hloads, LeadsTo]
  refine exists_congr fun u ↦ and_congr_right fun _ ↦ ?_
  constructor
  · rintro ⟨hroot, hbase⟩
    exact (hs.toSuper?_eq_some_of_root (congrArg View.address hroot)).2 ⟨rfl, hbase⟩
  · intro ha
    obtain ⟨offset, hm, -⟩ := hs.toSuper?_eq_some_iff.1 ha
    exact ⟨(hs.root_toSuper ha).symm, Registry.isBaseOf_iff.2 ⟨offset, hm⟩⟩

theorem LeadsTo.congr {type : Nat}
    (h : w.binding.registry.root u = w.binding.registry.root v) :
    w.LeadsTo x u type ↔ w.LeadsTo x v type := by
  rw [LeadsTo, LeadsTo, h]

/-! ### What casts miss -/

/-- **The value that a cast leaves does not lead to the object as the target.** -/
inductive Misses (w : World) (x : Value) (v : View) (target : Nat) : Prop
  /-- The object has been seen as something that has nothing to do with the target. -/
  | slot {a : Address} {h : Handle} {u : View}
      (other : w.binding.registry.isBaseOf target v.type = false)
      (down : w.binding.registry.toDerived? w.host.memory v target = some a)
      (weak : w.binding.registry.isWeak target = true) (handle : w.HandleOf ⟨a, target⟩ h)
      (seen : w.weakTable.Holds h.index h.serial u)
      (unrelated : ¬ w.binding.registry.Comparable u.type target)
  /-- The address at which the target would have to begin, and which is packed, is none. -/
  | null {word : UInt64} (packed : x = .word word)
      (other : w.binding.registry.isBaseOf target v.type = false)
      (down : w.binding.registry.toDerived? w.host.memory v target = some 0)
      (strong : w.binding.registry.isWeak target = false)

/-- A value that is of the target already is not missed. -/
theorem not_misses_of_isBaseOf (h : w.binding.registry.isBaseOf target v.type = true) :
    ¬ w.Misses x v target := by
  intro hmisses
  cases hmisses with
  | slot other | null _ other => exact absurd (h.symm.trans other) (by simp)

section Down

variable {a : Address} (hother : w.binding.registry.isBaseOf target v.type = false)
  (hdown : w.binding.registry.toDerived? w.host.memory v target = some a)
include hother hdown

theorem not_misses_weak (hweak : w.binding.registry.isWeak target = true) :
    ¬ w.Misses x v target ↔ ∀ {h u}, w.HandleOf ⟨a, target⟩ h →
      w.weakTable.Holds h.index h.serial u → w.binding.registry.Comparable u.type target := by
  constructor
  · intro hclear h u hh hu
    by_contra hunrelated
    exact hclear (.slot hother hdown hweak hh hu hunrelated)
  · intro hseen hmisses
    cases hmisses with
    | slot _ down _ handle seen unrelated =>
      obtain rfl := Option.some.inj (hdown.symm.trans down)
      exact unrelated (hseen handle seen)
    | null _ _ _ strong => exact absurd (hweak.symm.trans strong) (by simp)

theorem not_misses_strong (hweak : w.binding.registry.isWeak target = false) :
    ¬ w.Misses x v target ↔ ∀ word, x = .word word → a ≠ 0 := by
  constructor
  · rintro hclear word rfl rfl
    exact hclear (.null rfl hother hdown hweak)
  · intro hplace hmisses
    cases hmisses with
    | slot _ _ weak => exact absurd (weak.symm.trans hweak) (by simp)
    | null packed _ down _ =>
      obtain rfl := Option.some.inj (hdown.symm.trans down)
      exact hplace _ packed rfl

end Down

/-- A word without an address leads to nothing. -/
theorem not_leadsTo_null {word : UInt64} (hw : w.Sound R)
    (hpacked : w.binding.registry.packPointer? ⟨0, target⟩ = some word)
    (hweak : w.binding.registry.isWeak target = false) : ¬ w.LeadsTo (.word word) v target := by
  rintro ⟨u, hu, -⟩
  obtain ⟨hslot, hpayload⟩ := hw.registrySound.fields_packPointer hpacked hweak
  have hnone : w.binding.registry.resolveWord? w.weakTable word = none := by
    simp only [Registry.resolveWord?, hslot, hpayload, if_true]
  exact absurd (hnone.symm.trans (resolve_word.1 hu).2) (by simp)

/-! ### What casts change -/

/-- **What a cast to a type that leaves `y` changes**: what an object has been seen as, and what the
userdata `y` shows. -/
structure Recasts (w : World) (target : Nat) (y : Value) (w' : World) : Prop where
  remembers : ∀ k id, w'.Remembers k id ↔ w.Remembers k id
  record? : ∀ id, w'.record? id = w.record? id ∨
    y = .userdata id ∧ ∀ r, w.record? id = some r → r.ownership ≠ .owned
  stays : ∀ {i n u}, w.weakTable.Holds i n u → ∃ u', w'.weakTable.Holds i n u'
  holds : ∀ {i n u}, w'.weakTable.Holds i n u → w.weakTable.Holds i n u ∨ u.type = target

theorem Recasts.refl (w : World) (target : Nat) (y : Value) : w.Recasts target y w :=
  ⟨fun _ _ ↦ Iff.rfl, fun _ ↦ Or.inl rfl, fun {_ _ u} hu ↦ ⟨u, hu⟩, fun hu ↦ Or.inl hu⟩

theorem Recasts.trans {w₁ : World} (h : w.Recasts target y w₁) (h' : w₁.Recasts target y w') :
    w.Recasts target y w' where
  remembers k id := (h'.remembers k id).trans (h.remembers k id)
  record? id := by
    rcases h.record? id with hid | hid
    · rw [← hid]
      exact h'.record? id
    · exact Or.inr hid
  stays hu := by
    obtain ⟨u', hu'⟩ := h.stays hu
    exact h'.stays hu'
  holds hu := (h'.holds hu).elim (fun hu' ↦ h.holds hu') Or.inr

theorem Recasts.pushing (h : w.Recasts target y w') (x : Value) : w.Recasts target y (w'.pushing x) :=
  ⟨h.remembers, h.record?, h.stays, h.holds⟩

/-- A userdata whose record a cast leaves alone leads to an object afterwards if it did before. -/
theorem Recasts.live (hr : w.Recasts target y w') (hl : w.Leads R Set.univ w')
    (hg : Host.Grows R w.host w'.host) (hw : w.Sound R) {id : Nat}
    (hrecord : w'.record? id = w.record? id)
    (hlive : ∃ u, w.resolve (.userdata id) = .live u) :
    ∃ u, w'.resolve (.userdata id) = .live u := by
  obtain ⟨u, hu⟩ := hlive
  obtain ⟨r, hid, he, hne⟩ := exposed_of_resolve hu
  have hid' : w'.record? id = some r := hrecord.trans hid
  cases ht : r.target with
  | pointer a => exact ⟨_, resolve_of_pointer hid' he ht⟩
  | discarded => exact absurd ht hne
  | weak h =>
    obtain ⟨-, s, hs, -⟩ := (resolve_of_handle hid he ht).1 hu
    have hbase := (live_of_handle_iff hw hid he ht hs).1 ⟨u, hu⟩
    -- the slot is still occupied, and records no less derived type
    obtain ⟨s', hs'⟩ := hr.stays hs
    have htable : w'.host.weakTable? w.binding.domain = some w'.weakTable :=
      hl.domain ▸ hl.sound.weakTable?
    obtain ⟨t, ht', hclimbs⟩ := hg.climbs htable
    obtain rfl := Option.some.inj (hw.weakTable?.symm.trans ht')
    obtain ⟨s₀, hs₀, hmore⟩ := hclimbs.holds hs' (hw.binding.serial_lt hid ht)
    obtain rfl := (hs.unique hs₀).2
    rw [hw.registry] at hmore
    refine (live_of_handle_iff hl.sound hid' he ht hs').2 ?_
    rw [hl.registry]
    exact hw.registrySound.isBaseOf_trans hbase hmore

/-- **A cast obscures nothing** that is comparable to its target, if it does not miss its object. -/
theorem Obscured.of_recasts (ho : w'.Obscured u) (hr : w.Recasts target y w')
    (hl : w.Leads R Set.univ w') (hg : Host.Grows R w.host w'.host) (hw : w.Sound R)
    (hcomparable : w.binding.registry.Comparable target u.type)
    (hlive : ∃ u', w'.resolve y = .live u') : w.Obscured u := by
  have hroot : w'.rootOf u = w.rootOf u := by rw [rootOf, rootOf, hl.registry]
  have hunowned : (∀ id, ¬ w'.Remembers (.owned (w'.rootOf u)) id) →
      ∀ id, ¬ w.Remembers (.owned (w.rootOf u)) id := fun h id hm ↦
    h id (hroot ▸ (hr.remembers _ _).2 hm)
  have hrecord : ∀ {id}, (∀ u', w'.resolve (.userdata id) ≠ .live u') →
      w'.record? id = w.record? id := fun {id} hlost ↦ by
    refine (hr.record? id).elim (fun h ↦ h) ?_
    rintro ⟨rfl, -⟩
    obtain ⟨u', hu'⟩ := hlive
    exact absurd hu' (hlost u')
  have hlost : ∀ {id}, (∀ u', w'.resolve (.userdata id) ≠ .live u') →
      ∀ u', w.resolve (.userdata id) ≠ .live u' := fun {id} hlost u' hu' ↦ by
    obtain ⟨u'', hu''⟩ := hr.live hl hg hw (hrecord hlost) ⟨u', hu'⟩
    exact hlost u'' hu''
  cases ho with
  | @owned id r shown there record exposes other =>
    rw [hroot] at there
    have hm := (hr.remembers _ _).1 there
    rcases hr.record? id with hsame | ⟨-, hnot⟩
    · exact .owned hm (hsame.symm.trans record) exposes (hl.registry ▸ other)
    · obtain ⟨r₀, hr₀, hfits⟩ := hw.shelf.recorded hm
      exact absurd (Record.owned_of_cacheKey (hfits trivial).cacheKey) (hnot r₀ hr₀)
  | slot weak unowned handle seen other =>
    rw [hl.registry] at weak other
    rcases hr.holds seen with hseen | htype
    · obtain ⟨_, s, -, -, hs, hidentity⟩ := handle
      obtain rfl := (seen.unique hs).2
      rw [hl.registry] at hidentity
      exact .slot weak (hunowned unowned) (hw.handleOf_of_holds hseen hidentity) hseen other
    · rw [htype] at other
      exact absurd hcomparable other
  | @weak h id r weak unowned handle unpacked there record target lost =>
    rw [hl.registry] at weak
    rw [hl.settings, hl.registry] at unpacked
    have hid : w.record? id = some r := (hrecord lost).symm.trans record
    obtain ⟨_, s, -, -, hs, hidentity⟩ := handle
    have hfollows := hl.weakTable_follows
    rw [hw.registry] at hfollows
    obtain ⟨s₀, hs₀, hsame⟩ := hfollows.holds hs (hw.binding.serial_lt hid target)
    rw [hl.registry] at hidentity
    exact .weak weak (hunowned unowned) (hw.handleOf_of_holds hs₀ (hsame.trans hidentity)) unpacked
      ((hr.remembers _ _).1 there) hid target (hlost lost)
  | borrowed strong unowned unpacked there record exposes derived lost =>
    rw [hroot] at there
    rw [hl.registry] at strong derived
    rw [hl.settings, hl.registry] at unpacked
    exact .borrowed strong (hunowned unowned) unpacked ((hr.remembers _ _).1 there)
      ((hrecord lost).symm.trans record) exposes derived (hlost lost)

/-! ### What is cast down -/

section Downcast

variable {K : Set CacheKey} {h : Handle} {a : Address}

/-- Giving a weak object its handle leaves the slots of the other objects alone. -/
theorem Sound.admits_weakHandle? (hw : w.Sound R) {h' : Host}
    (hgiven : w.host.weakHandle? w.binding.registry w.binding.domain v = some (h, h')) :
    w.weakTable.Admits v ({ w with host := h' } : World).weakTable := by
  rw [Host.weakHandle?] at hgiven
  cases hanchor : (w.binding.registry.get? v.type).bind (·.anchor) with
  | none => simp [hanchor] at hgiven
  | some offset =>
    simp only [hanchor, Option.some.injEq] at hgiven
    obtain rfl := congrArg Prod.snd hgiven
    have hadmits := hw.anchored.admits_acquire hw.weakTable?
      ((w.binding.registry.root v).address.up offset) v
    rw [hw.registry] at hadmits
    exact hadmits

theorem Seated.recasts (hs : w.Seated R ⟨a, target⟩ h w')
    (hadmits : w.weakTable.Admits ⟨a, target⟩ w'.weakTable) (y : Value) : w.Recasts target y w' where
  remembers _ _ := hs.remembers
  record? id := Or.inl (hs.record? id)
  stays := hadmits.stays
  holds hu := (hadmits.holds hu).imp_right fun he ↦ by rw [he]

theorem Switched.recasts {id : Nat} {r : Record} {t : Target} (hs : w.Switched R K id r target t w') :
    w.Recasts target (.userdata id) w' where
  remembers := hs.alters.remembers
  record? id' := by
    by_cases hsame : id' = id
    · refine Or.inr ⟨by rw [hsame], fun r' hr' ↦ ?_⟩
      obtain rfl := Option.some.inj ((hsame ▸ hr').symm.trans hs.record)
      exact hs.unowned
    · exact Or.inl ((hs.alters.record? id').trans (if_neg hsame))
  stays {_ _ u} hu := ⟨u, (hs.leads.sameGround hs.alters.host).weakTable ▸ hu⟩
  holds hu := Or.inl ((hs.leads.sameGround hs.alters.host).weakTable ▸ hu)

theorem Downcast.recasts (hw : w.Sound R) (hd : w.Downcast R K v target a x y w') :
    w.Recasts target y w' := by
  cases hd with
  | address => exact .refl w target _
  | handle _ given _ seated _ => exact seated.recasts (hw.admits_weakHandle? given) _
  | pointer _ switched => exact switched.recasts
  | weak _ given _ seated switched =>
    exact (seated.recasts (hw.admits_weakHandle? given) _).trans switched.recasts

theorem Downcast.stack (hd : w.Downcast R K v target a x y w') :
    w'.binding.machine.stack = w.binding.machine.stack := by
  cases hd with
  | address => rfl
  | handle => rfl
  | pointer _ switched => exact switched.alters.stack
  | weak _ _ _ _ switched => exact switched.alters.stack

variable (hw : w.Sound R) (hother : w.binding.registry.isBaseOf target v.type = false)
  (hdown : w.binding.registry.toDerived? w.host.memory v target = some a)
include hw hother hdown

/-- A cast to a weak type misses its object exactly if the slot does not record the type then. -/
theorem Seated.not_misses_iff (hweak : w.binding.registry.isWeak target = true)
    (hs : w.Seated R ⟨a, target⟩ h w') {u : View} (hu : w'.weakTable.Holds h.index h.serial u) :
    ¬ w.Misses x v target ↔ w.binding.registry.isBaseOf target u.type = true := by
  rw [not_misses_weak hother hdown hweak, ← hs.seen_iff hw hu]

/-- **What is cast down leads to its object as the target**, unless the cast misses the object. -/
theorem Downcast.leadsTo_iff (hv : w.resolve x = .live v) (hd : w.Downcast R K v target a x y w') :
    w'.LeadsTo y v target ↔ ¬ w.Misses x v target := by
  have hs := hw.registrySound
  have hroot := hs.root_toDerived hdown
  cases hd with
  | @address word _ strong packs =>
    rw [not_misses_strong hother hdown strong]
    by_cases hzero : a = 0
    · subst hzero
      exact iff_of_false (not_leadsTo_null hw packs strong) fun h ↦ h word rfl rfl
    · have hload := loadsIf_word (v := ⟨a, target⟩) hw (resolve_word.1 hv).1 strong packs hzero
      refine iff_of_true ?_ fun _ _ ↦ hzero
      exact (LeadsTo.congr hroot).1 ((hload.leadsTo_iff hw).2 trivial)
  | handle weak given leads seated packs =>
    have hlight := (resolve_word.1 hv).1
    obtain ⟨u, hu, hidentity⟩ := seated.exists_holds
    rw [seated.not_misses_iff hw hother hdown weak hu]
    have hload := loadsIf_weakWord (v := ⟨a, target⟩) leads.sound hlight weak packs hu
      (congrArg (fun x ↦ x.2.address) hidentity)
    refine Iff.trans (LeadsTo.congr ?_).symm (hload.leadsTo_iff leads.sound)
    exact hroot
  | pointer strong switched =>
    have hg := switched.leads.sameGround switched.alters.host
    rw [not_misses_strong hother hdown strong]
    refine iff_of_true ?_ fun word hword ↦ absurd hword (by simp)
    have hload := (loadsIf_pointer (v := ⟨a, target⟩) switched.leads.sound switched.alters.record rfl rfl
      rfl).leadsTo_iff switched.leads.sound
    rw [hg.registry] at hload
    refine (LeadsTo.congr ?_).1 (hload.2 (hs.isBaseOf_refl target))
    rw [hg.registry]
    exact hroot
  | weak weak given leads seated switched =>
    have hg := switched.leads.sameGround switched.alters.host
    obtain ⟨u, hu, hidentity⟩ := seated.exists_holds
    rw [seated.not_misses_iff hw hother hdown weak hu]
    have hroot' : w'.rootOf u = w'.rootOf ⟨a, target⟩ := by
      rw [hg.rootOf]
      exact congrArg (fun x ↦ x.2.address) hidentity
    have hload := (loadsIf_handle (v := ⟨a, target⟩) switched.leads.sound switched.alters.record rfl rfl
      (hg.weakTable ▸ hu) hroot').leadsTo_iff switched.leads.sound
    rw [hg.registry] at hload
    refine (LeadsTo.congr ?_).symm.trans (hload.trans (and_iff_left (hs.isBaseOf_refl target)))
    rw [hg.registry]
    exact hroot

end Downcast

end World

namespace Exec

variable {R : Realm} {w : World}

/-- **What a cast leaves**: nil for a value that leads to no object, and otherwise a value that leads
to the object as the target, unless the cast misses it. -/
theorem ends_castValue (hw : w.Sound R) (x : Value) (target : Nat)
    (hsingle : ∀ v a, w.resolve x = .live v →
      w.binding.registry.toDerived? w.host.memory v target = some a →
      w.binding.registry.isWeak target = true → w.Single ⟨a, target⟩) :
    Ends (castValue x target)
      (fun y w' ↦ w'.binding.machine.stack = w.binding.machine.stack ∧ w.Recasts target y w' ∧
        ((y = .nil ∧ ∀ v, w.resolve x ≠ .live v) ∨
          ∃ v, w.resolve x = .live v ∧ (w'.LeadsTo y v target ↔ ¬ w.Misses x v target)))
      (fun _ _ ↦ True) w := by
  refine ends_castValue_cases (fun hgone ↦ ⟨rfl, .refl w target _, Or.inl ⟨rfl, hgone⟩⟩) (fun _ ↦ trivial)
    (fun v hv hbase ↦ ⟨rfl, .refl w target x, Or.inr ⟨v, hv, iff_of_true ⟨v, hv, rfl, hbase⟩
      (World.not_misses_of_isBaseOf hbase)⟩⟩)
    (fun v a hv howned hother hdown ↦ ?_) fun _ _ _ _ ↦ trivial
  exact (ends_castDown (K := ∅) hw hv howned hother hdown (hsingle v a hv hdown)).imp
    (fun y w' h ↦ ⟨h.stack, h.recasts hw, Or.inr ⟨v, hv, h.leadsTo_iff hw hother hdown hv⟩⟩)
    fun _ _ _ ↦ trivial

/-- The same of a cast, which leaves the value on the stack. -/
theorem ends_cast (hw : w.Sound R) (idx : Int) (target : Nat)
    (hallowed : (Event.cast idx target).Allowed w) :
    Ends (cast idx target)
      (fun _ w' ↦ ∃ w₁ y, w' = w₁.pushing y ∧
        w₁.binding.machine.stack = w.binding.machine.stack ∧ w.Recasts target y w₁ ∧
        ((y = .nil ∧ ∀ v, w.resolve (w.binding.machine.valueAt idx) ≠ .live v) ∨
          ∃ v, w.resolve (w.binding.machine.valueAt idx) = .live v ∧
            (w₁.LeadsTo y v target ↔ ¬ w.Misses (w.binding.machine.valueAt idx) v target)))
      (fun _ _ ↦ True) w := by
  simp only [cast, ends_bind, ends_valueAt]
  exact (ends_castValue hw _ target hallowed).imp (fun y w₁ h ↦ ⟨w₁, y, rfl, h⟩) fun _ _ h ↦ h

end Exec

namespace Session

/-- **What is cast leads to its object, and so does what is pushed afterwards.** Start a session with
any number of bindings, let anything happen to it, and then let a value be cast to a type. If that
does not fail then one value more is on the stack. It is nil for a value that leads to no object, and
otherwise it leads to the same object as the target or as something derived from it, unless the cast
missed the object. If then the object is pushed, as a type of the host, what is left on the stack
leads to it as that type, unless the object is obscured; and the cast, if it did not miss its object,
has obscured it as no type that is comparable to the target. -/
theorem cast_leadsTo {c : Catalogue} {registries : List (List PlanStep)} {plans : List BindingPlan}
    (hne : plans ≠ []) (hplans : ∀ p ∈ plans, p.registry < registries.length) {s₀ s : Session}
    (hstart : start c registries plans = .ok s₀)
    (before : Run (fun s m ↦ s.Orderly m ∧ s.KeepsFrames m) s₀ s) {idx : Int} {target : Nat}
    (hallowed : (Event.cast idx target).Allowed s.world) {w' : World}
    (hcast : (Exec.cast idx target).outcome s.world = (.ok (), w')) :
    ∃ y, w'.binding.machine.stack = s.world.binding.machine.stack.push y ∧
      ((y = .nil ∧ ∀ v, s.world.resolve (s.world.binding.machine.valueAt idx) ≠ .live v) ∨
        ∃ v, s.world.resolve (s.world.binding.machine.valueAt idx) = .live v ∧
          (w'.LeadsTo y v target ↔
            ¬ s.world.Misses (s.world.binding.machine.valueAt idx) v target) ∧
          ∀ {b : Address} {t : TypeKey} {type : Nat} {w'' : World}, b ≠ 0 →
            s.world.binding.registry.idOf? t = some type →
            s.world.binding.registry.root ⟨b, type⟩ = s.world.binding.registry.root v →
            (Event.pushPointer (some b) t).Allowed w' →
            (Exec.pushPointer (some b) t).outcome w' = (.ok (), w'') →
            (∃ x, w''.binding.machine.stack = w'.binding.machine.stack.push x ∧
              (w''.LeadsTo x v type ↔ ¬ w'.Obscured ⟨b, type⟩)) ∧
            (w'.Obscured ⟨b, type⟩ →
              ¬ s.world.Misses (s.world.binding.machine.valueAt idx) v target →
              s.world.binding.registry.Comparable target type → s.world.Obscured ⟨b, type⟩)) := by
  have hsound := (before.sound (sound_start hne hplans hstart)).world
  have hframed := (before.framed (fun _ _ h ↦ h.2) (framed_start hstart)).world
  have haccurate := ((before.mono fun _ _ h ↦ h.1).accurate_of_start hne hplans hstart).seen
    s.seen_current
  have hafter := (Exec.disciplined_cast idx target _ hframed).ok hcast
  have hadvances := (Exec.advances_cast hsound haccurate idx target hallowed
    fun _ _ _ _ hmem ↦ absurd hmem (Set.notMem_empty _)).ok hcast
  obtain ⟨w₁, y, rfl, hstack, hrecasts, hvalue⟩ := (Exec.ends_cast hsound idx target hallowed).ok hcast
  have hregistry := hadvances.leads.registry
  refine ⟨y, congrArg (·.push y) hstack, hvalue.imp_right ?_⟩
  rintro ⟨v, hv, hleads⟩
  refine ⟨v, hv, hleads, fun {b t type w''} hb exported hroot hpush hpushed ↦ ⟨?_, ?_⟩⟩
  · rw [← hregistry] at exported hroot
    have hframed' := hafter.framed hframed
    obtain ⟨x, hstack, hload⟩ := (Exec.ends_pushPointer_delivers hadvances.sound hadvances.accurate
      exported (hpush b type rfl exported)).ok hpushed
    have hpasses := (Event.pushPointer (some b) t).passes hadvances.sound hpush
    have hdone : (Event.pushPointer (some b) t).after (w₁.pushing y) = w'' := congrArg Prod.snd hpushed
    rw [hdone] at hpasses
    refine ⟨x, hstack hframed'.base_le, ?_⟩
    rw [← (hload hb).leadsTo_iff hpasses.sound]
    refine (World.LeadsTo.congr ?_).symm
    rw [hpasses.registry]
    exact hroot
  · intro hobscured hclear hcomparable
    exact hobscured.of_recasts (hrecasts.pushing y) hadvances.leads hadvances.grows hsound hcomparable
      ⟨_, (hleads.2 hclear).choose_spec.1⟩

/-- A player is cast to a singer, and the value leads to the player as a singer. -/
theorem cast_leadsTo_singer : ∃ (w' : World) (y : Value), w'.LeadsTo y ⟨0x1000, 0⟩ 1 := by
  let s := tour.move (.happen (.pushPointer (some 0x1000) 0))
  have hfacts : (tour.world.binding.registry.idOf? 0 = some 0 ∧ tour.world.singleInSlots ⟨0x1000, 0⟩) ∧
      (s.world.resolve (s.world.binding.machine.valueAt (-1)) = .live ⟨0x1000, 0⟩ ∧
        s.world.binding.registry.toDerived? s.world.host.memory ⟨0x1000, 0⟩ 1 = some 0x1000 ∧
        s.world.singleInSlots ⟨0x1000, 1⟩) ∧
      s.world.binding.registry.isBaseOf 1 0 = false ∧ s.world.binding.registry.isWeak 1 = true ∧
      ((Exec.cast (-1) 1).outcome s.world).1 = .ok () ∧
      (s.world.weakTable.slots.all fun slot ↦ slot.view.all fun u ↦
        s.world.binding.registry.isBaseOf u.type 1) = true := by
    decide +kernel
  obtain ⟨⟨hexported, hsingle⟩, ⟨hv, hdown, hsingle'⟩, hother, hweak, hok, hseen⟩ := hfacts
  have hallowed := allowed_push (a := 0x1000) hexported (World.single_of_slots hsingle)
  have before : Run (fun s m ↦ s.Orderly m ∧ s.KeepsFrames m) tour s :=
    .step (.refl _) hallowed ⟨trivial, trivial⟩
  obtain ⟨y, -, ⟨-, hnone⟩ | ⟨v, hv', hleads, -⟩⟩ := cast_leadsTo (by decide) (by decide)
    start_troupe before (allowed_cast hv hdown (World.single_of_slots hsingle'))
    (Exec.outcome_eq_of_fst hok)
  · exact absurd hv (hnone _)
  · obtain rfl := Resolved.live.inj (hv.symm.trans hv')
    refine ⟨_, y, hleads.2 ((World.not_misses_weak hother hdown hweak).2 fun {h u} _ hu ↦ ?_)⟩
    obtain ⟨hlt, hslot⟩ := Array.getElem?_eq_some_iff.1 (show s.world.weakTable.slots[h.index]? = _
      from hu)
    have hall := Array.all_eq_true.1 hseen h.index hlt
    rw [hslot] at hall
    exact Or.inl hall

/-- Two bindings that pack no words. -/
def desks : List BindingPlan :=
  [{ settings := { lightUserdata := false } }, { settings := { lightUserdata := false } }]

/-- A session with two bindings to the registry of singers and dancers. -/
@[irreducible]
def duet : Session :=
  match start troupe [[.create 1, .create 2]] desks with
  | .ok s => s
  | .error _ => {}

theorem start_duet : start troupe [[.create 1, .create 2]] desks = .ok duet := by
  have hok : (match start troupe [[.create 1, .create 2]] desks with
    | .ok _ => true
    | .error _ => false) = true := by decide +kernel
  unfold duet
  generalize start troupe [[.create 1, .create 2]] desks = result at hok ⊢
  cases result with
  | ok s => rfl
  | error f => exact absurd hok (by simp)

/-- **Not all that is cast leads to its object**: two bindings have been shown a player. Through one of
them it is cast to a singer, and then through the other one to a dancer. That does not fail, and the
value that it leaves leads to nothing. -/
theorem not_cast_leadsTo : ∃ (s₀ s : Session) (w' : World) (y : Value),
    start troupe [[.create 1, .create 2]] desks = .ok s₀ ∧
      Run (fun s m ↦ s.Orderly m ∧ s.KeepsFrames m) s₀ s ∧ (Event.cast (-1) 2).Allowed s.world ∧
      (Exec.cast (-1) 2).outcome s.world = (.ok (), w') ∧ w'.top? = some y ∧ y ≠ .nil ∧
      ∀ u, w'.resolve y ≠ .live u := by
  let s₁ := duet.move (.happen (.pushPointer (some 0x1000) 0))
  let s₂ := s₁.move (.turn 1)
  let s₃ := s₂.move (.happen (.pushPointer (some 0x1000) 0))
  let s₄ := s₃.move (.turn 0)
  let s₅ := s₄.move (.happen (.cast (-1) 1))
  let s₆ := s₅.move (.turn 1)
  have hfacts : (duet.world.binding.registry.idOf? 0 = some 0 ∧ duet.world.singleInSlots ⟨0x1000, 0⟩ ∧
      s₂.world.binding.registry.idOf? 0 = some 0 ∧ s₂.world.singleInSlots ⟨0x1000, 0⟩) ∧
      (s₄.world.resolve (s₄.world.binding.machine.valueAt (-1)) = .live ⟨0x1000, 0⟩ ∧
        s₄.world.binding.registry.toDerived? s₄.world.host.memory ⟨0x1000, 0⟩ 1 = some 0x1000 ∧
        s₄.world.singleInSlots ⟨0x1000, 1⟩) ∧
      (s₆.world.resolve (s₆.world.binding.machine.valueAt (-1)) = .live ⟨0x1000, 0⟩ ∧
        s₆.world.binding.registry.toDerived? s₆.world.host.memory ⟨0x1000, 0⟩ 2 = some 0x1000 ∧
        s₆.world.singleInSlots ⟨0x1000, 2⟩) ∧
      ((Exec.cast (-1) 2).outcome s₆.world).1 = .ok () ∧
      ((Exec.cast (-1) 2).outcome s₆.world).2.top? = some (.userdata 0) ∧
      ((Exec.cast (-1) 2).outcome s₆.world).2.resolve (.userdata 0) = .stale 2 := by
    decide +kernel
  obtain ⟨⟨hexported, hsingle, hexported₂, hsingle₂⟩, ⟨hv, hdown, hsingle₄⟩, ⟨hv₆, hdown₆, hsingle₆⟩,
    hok, htop, hstale⟩ := hfacts
  have hpush : (Event.pushPointer (some 0x1000) 0).Allowed duet.world :=
    allowed_push hexported (World.single_of_slots hsingle)
  have hpush₂ : (Event.pushPointer (some 0x1000) 0).Allowed s₂.world :=
    allowed_push hexported₂ (World.single_of_slots hsingle₂)
  have hcast : (Event.cast (-1) 1).Allowed s₄.world :=
    allowed_cast hv hdown (World.single_of_slots hsingle₄)
  have hcast₆ : (Event.cast (-1) 2).Allowed s₆.world :=
    allowed_cast hv₆ hdown₆ (World.single_of_slots hsingle₆)
  have hrun : Run (fun s m ↦ s.Orderly m ∧ s.KeepsFrames m) duet s₆ :=
    .step (.step (.step (.step (.step (.step (.refl _) hpush ⟨trivial, trivial⟩) trivial
      ⟨trivial, trivial⟩) hpush₂ ⟨trivial, trivial⟩) trivial ⟨trivial, trivial⟩) hcast
        ⟨trivial, trivial⟩) trivial ⟨trivial, trivial⟩
  refine ⟨duet, s₆, _, _, start_duet, hrun, hcast₆, Exec.outcome_eq_of_fst hok, htop, by simp, fun u hu ↦ ?_⟩
  exact absurd (hstale.symm.trans hu) (by simp)

end Session

end ObjectBridge
