import ObjectBridge.Proofs.Pushing

/-!
# Casts

A value that leads to an object is cast down in one of four ways (`World.Downcast`,
`Exec.ends_castDown`): a word is packed anew, with the address of the object or with its handle, and a
userdata comes to show the object by the one or the other. A cast to a more derived type may be the
first time that the host shows an object as a weak one; the object is then given its slot.

A cast keeps up what the bridge keeps up, and a value of a weak object that it leaves on the stack
denotes the handle of the object it was asked about (`keeps_cast`).
-/

namespace ObjectBridge

namespace World

variable {R : Realm} {K : Set CacheKey} {w w' : World} {v : View} {x : Value}

/-- A userdata that owns its object. -/
def Owns (w : World) (x : Value) : Prop :=
  ∃ id r, x = .userdata id ∧ w.record? id = some r ∧ r.ownership = .owned

/-- A value that denotes the handle of the object seen as `v`, or of a view of the same object. -/
def Stands (w : World) (v : View) (x : Value) : Prop :=
  ∃ u h, w.binding.registry.root u = w.binding.registry.root v ∧ w.HandleOf u h ∧ w.Denotes h x

/-- What a record shows when its userdata leads to an object. -/
theorem exposed_of_resolve {id : Nat} (hv : w.resolve (.userdata id) = .live v) :
    ∃ r, w.record? id = some r ∧ r.exposed = .declared v.type ∧ r.target ≠ .discarded := by
  rw [resolve] at hv
  cases hr : w.binding.machine.record? id with
  | none => simp [hr] at hv
  | some r =>
    refine ⟨r, hr, ?_⟩
    simp only [hr, resolveRecord] at hv
    split at hv
    · exact absurd hv (by simp)
    · rename_i type a he ht
      obtain rfl := Resolved.live.inj hv
      exact ⟨he, by rw [ht]; simp⟩
    · rename_i type h he ht
      split at hv
      · obtain rfl := Resolved.live.inj hv
        exact ⟨he, by rw [ht]; simp⟩
      · exact absurd hv (by simp)
    · exact absurd hv (by simp)

/-- **A userdata that does not own its object has come to show it** as a more derived type. -/
structure Switched (R : Realm) (K : Set CacheKey) (w : World) (id : Nat) (r : Record) (type : Nat)
    (target : Target) (w' : World) : Prop where
  record : w.record? id = some r
  unowned : r.ownership ≠ .owned
  ne_discarded : r.target ≠ .discarded
  leads : w.Leads R K w'
  alters : w.Alters id (Exec.shownAs r type target) w'
  base : ∃ shown, r.exposed = .declared shown ∧ shown ≠ type ∧
    w.binding.registry.isBaseOf shown type = true

theorem Switched.reshown {id type : Nat} {r : Record} {target : Target}
    (h : w.Switched R K id r type target w') : Exec.Reshown w id r type target w' := by
  obtain ⟨shown, he, hne, hbase⟩ := h.base
  exact .changed h.alters (Record.type?_eq_some.2 he) hne hbase

/-- **A value of the object seen as `v` becomes one of the object as `target`**, which begins at `a`. -/
inductive Downcast (R : Realm) (K : Set CacheKey) (w : World) (v : View) (target : Nat) (a : Address) :
    Value → Value → World → Prop
  /-- The address is packed. -/
  | address {word packed : UInt64} (strong : w.binding.registry.isWeak target = false)
      (packs : w.binding.registry.packPointer? ⟨a, target⟩ = some packed) :
      Downcast R K w v target a (.word word) (.word packed) w
  /-- The handle is packed. -/
  | handle {word packed : UInt64} {handle : Handle} {h : Host}
      (weak : w.binding.registry.isWeak target = true)
      (given : w.host.weakHandle? w.binding.registry w.binding.domain ⟨a, target⟩ = some (handle, h))
      (leads : w.Leads R K { w with host := h })
      (seated : w.Seated R ⟨a, target⟩ handle { w with host := h })
      (packs : w.binding.registry.packWeak? handle target = some packed) :
      Downcast R K w v target a (.word word) (.word packed) { w with host := h }
  /-- A userdata shows the object by its address. -/
  | pointer {id : Nat} {r : Record} {w' : World} (strong : w.binding.registry.isWeak target = false)
      (switched : w.Switched R K id r target (.pointer a) w') :
      Downcast R K w v target a (.userdata id) (.userdata id) w'
  /-- A userdata shows the object by its handle. -/
  | weak {id : Nat} {r : Record} {handle : Handle} {h : Host} {w' : World}
      (weak : w.binding.registry.isWeak target = true)
      (given : w.host.weakHandle? w.binding.registry w.binding.domain ⟨a, target⟩ = some (handle, h))
      (leads : w.Leads R K { w with host := h })
      (seated : w.Seated R ⟨a, target⟩ handle { w with host := h })
      (switched : Switched R K { w with host := h } id r target (.weak handle) w') :
      Downcast R K w v target a (.userdata id) (.userdata id) w'

end World

namespace Exec

variable {R : Realm} {K : Set CacheKey} {w : World}

theorem ends_valueAt (idx : Int) {Q : Value → World → Prop} {E : Interrupt → World → Prop} :
    Ends (valueAt idx) Q E w ↔ Q (w.binding.machine.valueAt idx) w :=
  .rfl

theorem ends_resolve (x : Value) {Q : Resolved → World → Prop} {E : Interrupt → World → Prop} :
    Ends (resolve x) Q E w ↔ Q (w.resolve x) w :=
  .rfl

/-- A userdata that leads to an object may show it as a more derived type that is not weak. -/
theorem showable_pointer (hw : w.Sound R) {r : Record} {v : View} {target : Nat}
    (he : r.exposed = .declared v.type) (hlive : r.target ≠ .discarded)
    (hbase : w.binding.registry.isBaseOf v.type target = true)
    (hweak : w.binding.registry.isWeak target = false) (a : Address) :
    Showable w r target (.pointer a) where
  weak h hh := absurd hh (by simp)
  carries h hc := by
    have hv := hc.1
    rw [Record.type?_eq_some.2 he] at hv
    rw [hw.registrySound.isWeak_of_isBaseOf hbase hv] at hweak
    exact absurd hweak (by simp)
  not_discarded _ := by
    rw [Record.discarded, decide_eq_false_iff_not]
    exact hlive
  ne_discarded := by simp

/-- A userdata that leads to an object may show it as a more derived type that is weak, with the
handle of the object. -/
theorem showable_weak (hw : w.Sound R) {id : Nat} {r : Record} {v : View} {target : Nat}
    {a : Address} {h : Handle} (hid : w.record? id = some r)
    (hv : w.resolve (.userdata id) = .live v) (howned : r.ownership ≠ .owned)
    (hlive : r.target ≠ .discarded)
    (hdown : w.binding.registry.toDerived? w.host.memory v target = some a)
    (hweak : w.binding.registry.isWeak target = true)
    (hkeeps : ∀ h', w.HandleOf ⟨a, target⟩ h' → h' = h) {w₁ : World} (hbinding : w₁.binding = w.binding)
    (hlt : h.serial < w₁.weakTable.nextSerial) : Showable w₁ r target (.weak h) where
  weak h' hh := by
    obtain rfl := Target.weak.inj hh
    rw [hbinding]
    exact ⟨hweak, howned, hlt⟩
  carries h' hc := by
    rw [hbinding] at hc
    have ht : r.target = .weak h' := hc.2.resolve_right hlive
    have hx : w.Weak (.userdata id) := ⟨r, h', hid, ht⟩
    obtain ⟨h'', hh'', hd''⟩ := hw.denotes_of_resolve hx hv
    -- the record leads to the object by `h'`, so `h'` is the handle of the object also when it is
    -- seen as the more derived type
    obtain rfl : h' = h'' := by
      obtain ⟨r', hr', -, ht'⟩ := hd''
      obtain rfl := Option.some.inj (hid.symm.trans hr')
      rw [ht] at ht'
      simpa using ht'
    obtain ⟨c, u, hc', ha, hu, hidentity⟩ := hh''
    obtain ⟨offset, hline, -⟩ := hw.registrySound.toDerived?_eq_some hdown
    have hroot := hw.registrySound.root_toDerived hdown
    have hview : w.binding.registry.isWeak v.type = true := by
      obtain ⟨r', hr', he, -⟩ := World.exposed_of_resolve hv
      obtain rfl := Option.some.inj (hid.symm.trans hr')
      have hcarried := hc.1
      rwa [Record.type?_eq_some.2 he] at hcarried
    have hregistered : (w.binding.registry.get? target).isSome = true := by
      obtain ⟨n, -, hcell⟩ := hw.registrySound.exists_anchorCell? (v := ⟨a, target⟩) hweak
      exact Registry.isSome_of_anchorCell? hcell
    have hsame := hw.registrySound.identity_eq (u := ⟨a, target⟩) hline hroot.symm hview hregistered
    rw [hkeeps h' (hw.handleOf_of_holds hu (hidentity.trans hsame.symm))]
  not_discarded _ := by
    rw [Record.discarded, decide_eq_false_iff_not]
    exact hlive
  ne_discarded := by simp

section CastDown

variable {x : Value} {v : View} {target : Nat} {a : Address} (hw : w.Sound R)
  (hv : w.resolve x = .live v) (howned : ¬ w.Owns x)
  (hother : w.binding.registry.isBaseOf target v.type = false)
  (hdown : w.binding.registry.toDerived? w.host.memory v target = some a)
include hw hv howned hother hdown

/-- **A cast down**, and what it leaves when there is no room for the object in a word. -/
theorem ends_castDown (hsingle : w.binding.registry.isWeak target = true → w.Single ⟨a, target⟩) :
    Ends (castDown x v target a) (fun y w' ↦ w.Downcast R K v target a x y w')
      (fun _ w' ↦ w' = w ∨ w.Leads R K w' ∧ ∃ h, w.Seated R ⟨a, target⟩ h w') w := by
  obtain ⟨offset, hline, -⟩ := hw.registrySound.toDerived?_eq_some hdown
  have hbase : w.binding.registry.isBaseOf v.type target = true :=
    Registry.isBaseOf_iff.2 ⟨offset, hline⟩
  have hne : v.type ≠ target := by
    rintro rfl
    exact absurd (hother.symm.trans (hw.registrySound.isBaseOf_refl _)) (by simp)
  cases x with
  | word word =>
    simp only [castDown, ends_bind, ends_registry]
    cases hweak : w.binding.registry.isWeak target with
    | true =>
      obtain ⟨handle, h, hgiven, hleads, hseated⟩ := exists_weakHandle? (K := K) hw hweak (hsingle hweak)
      simp only [if_true, ends_bind, ends_weakHandle_iff, hgiven, ends_pure]
      cases hpacked : w.binding.registry.packWeak? handle target with
      | none => exact Or.inr ⟨hleads, handle, hseated⟩
      | some packed => exact .handle hweak hgiven hleads hseated hpacked
    | false =>
      simp only [Bool.false_eq_true, if_false]
      cases hpacked : w.binding.registry.packPointer? ⟨a, target⟩ with
      | none => exact Or.inl rfl
      | some packed => exact .address hweak hpacked
  | userdata id =>
    obtain ⟨r, hid, he, hlive⟩ := World.exposed_of_resolve hv
    have hunowned : r.ownership ≠ .owned := fun ho ↦ howned ⟨id, r, rfl, hid, ho⟩
    -- the userdata shows a base of the target, so it is not left as it is
    have hswitched {w₁ w' : World} {t : Target} (hid₁ : w₁.record? id = some r)
        (hregistry : w₁.binding.registry = w.binding.registry) (hleads : w₁.Leads R K w')
        (hshown : Reshown w₁ id r target t w') : w₁.Switched R K id r target t w' := by
      have hderived := hregistry ▸ hbase
      cases hshown with
      | kept _ hsettled => exact absurd ⟨hne, hderived⟩ (hsettled v.type (Record.type?_eq_some.2 he))
      | changed alters _ _ _ => exact ⟨hid₁, hunowned, hlive, hleads, alters, v.type, he, hne, hderived⟩
    simp only [castDown, ends_bind, ends_registry]
    cases hweak : w.binding.registry.isWeak target with
    | true =>
      obtain ⟨handle, h, hgiven, hleads, hseated⟩ := exists_weakHandle? (K := K) hw hweak (hsingle hweak)
      simp only [if_true, ends_bind, ends_weakHandle_iff, hgiven]
      refine (ends_upgradeView (K := K) hleads.sound hid fun shown _ _ _ ↦
        showable_weak hw hid hv hunowned hlive hdown hweak hseated.kept rfl
          (hseated.handle.serial_lt hleads.sound)).imp (fun _ w' h ↦ ?_) fun _ _ h ↦ h.elim
      exact .weak hweak hgiven hleads hseated (hswitched hid rfl h.1 h.2)
    | false =>
      simp only [Bool.false_eq_true, if_false, ends_bind]
      refine (ends_upgradeView (K := K) hw hid fun shown _ _ _ ↦
        showable_pointer hw he hlive hbase hweak a).imp (fun _ w' h ↦ ?_) fun _ _ h ↦ h.elim
      exact .pointer hweak (hswitched hid rfl h.1 h.2)
  | _ => exact Or.inl rfl

end CastDown

/-- **The cases of a cast.** -/
theorem ends_castValue_cases {x : Value} {target : Nat} {Q : Value → World → Prop}
    {E : Interrupt → World → Prop}
    (hgone : (∀ v, w.resolve x ≠ .live v) → Q .nil w)
    (hforeign : (∀ v, w.resolve x ≠ .live v) →
      E (.failure (.invalidCast x.kindName (w.binding.registry.nameOf target))) w)
    (hup : ∀ v, w.resolve x = .live v → w.binding.registry.isBaseOf target v.type = true → Q x w)
    (hdown : ∀ v a, w.resolve x = .live v → ¬ w.Owns x →
      w.binding.registry.isBaseOf target v.type = false →
      w.binding.registry.toDerived? w.host.memory v target = some a →
      Ends (castDown x v target a) Q E w)
    (hinvalid : ∀ v, w.resolve x = .live v → w.binding.registry.isBaseOf target v.type = false →
      (w.Owns x ∨ w.binding.registry.toDerived? w.host.memory v target = none) →
      E (.failure (.invalidCast (w.binding.registry.nameOf v.type)
        (w.binding.registry.nameOf target))) w) :
    Ends (castValue x target) Q E w := by
  have howns : ((x.userdata?.bind w.binding.machine.record?).any fun own ↦
      decide (own.ownership = .owned)) = true ↔ w.Owns x := by
    cases x <;> simp [World.Owns, World.record?, Value.userdata?, Option.any_eq_true]
  simp only [castValue, ends_bind, ends_registry, ends_resolve]
  cases hv : w.resolve x with
  | stale type => exact hgone (by simp [hv])
  | foreign =>
    simp only
    split
    · exact hgone (by simp [hv])
    · exact hforeign (by simp [hv])
  | live v =>
    simp only
    split
    · rename_i hbase
      exact hup v hv hbase
    · rename_i hother
      have hother' := Bool.eq_false_iff.2 hother
      simp only [ends_bind, ends_machine, ends_host]
      by_cases howned : w.Owns x
      · rw [if_pos (howns.2 howned)]
        exact hinvalid v hv hother' (Or.inl howned)
      · rw [if_neg (mt howns.1 howned)]
        cases htold : w.binding.registry.toDerived? w.host.memory v target with
        | none => exact hinvalid v hv hother' (Or.inr htold)
        | some a => exact hdown v a hv howned hother' htold

/-- **What a cast leaves has a property** that the world has at first, and whenever a weak object has
been given its handle or a value has been cast down. -/
theorem ends_cast_of (hw : w.Sound R) (idx : Int) (target : Nat)
    (hsingle : ∀ v a, w.resolve (w.binding.machine.valueAt idx) = .live v →
      w.binding.registry.toDerived? w.host.memory v target = some a →
      w.binding.registry.isWeak target = true → w.Single ⟨a, target⟩) {P : World → Prop} (hrefl : P w)
    (hseated : ∀ {v h w'}, w.Leads R K w' → w.Seated R v h w' → P w')
    (hdowncast : ∀ {v a y w'}, w.resolve (w.binding.machine.valueAt idx) = .live v →
      w.binding.registry.isBaseOf target v.type = false →
      w.binding.registry.toDerived? w.host.memory v target = some a →
      w.Downcast R K v target a (w.binding.machine.valueAt idx) y w' → P w')
    (hpushing : ∀ {w'} y, P w' → P (w'.pushing y)) :
    Ends (cast idx target) (fun _ w' ↦ P w') (fun _ w' ↦ P w') w := by
  simp only [cast, ends_bind, ends_valueAt]
  refine Ends.imp (Q := fun _ w' ↦ P w') (E := fun _ w' ↦ P w') ?_ (fun y _ h ↦ hpushing y h)
    fun _ _ h ↦ h
  refine ends_castValue_cases (fun _ ↦ hrefl) (fun _ ↦ hrefl) (fun _ _ _ ↦ hrefl)
    (fun v a hv howned hother hdown ↦ ?_) fun _ _ _ _ ↦ hrefl
  refine (ends_castDown (K := K) hw hv howned hother hdown (hsingle v a hv hdown)).imp
    (fun _ _ h ↦ hdowncast hv hother hdown h) fun _ _ h ↦ ?_
  obtain rfl | ⟨hl, h, hs⟩ := h
  · exact hrefl
  · exact hseated hl hs

/-- What a cast down yields is a value of the object that was asked about. -/
theorem keeps_downcast (hw : w.Sound R) {x y : Value} {v : View} {target : Nat} {a : Address}
    {w' : World} (hdown : w.binding.registry.toDerived? w.host.memory v target = some a)
    (h : w.Downcast R K v target a x y w') : w.Leads R K w' ∧ (w'.Weak y → w'.Stands v y) := by
  have hroot := hw.registrySound.root_toDerived hdown
  cases h with
  | address strong packs =>
    refine ⟨World.Leads.refl hw, fun hy ↦ ?_⟩
    obtain ⟨root, hslot⟩ := hy
    rw [(hw.registrySound.fields_packPointer packs strong).1] at hslot
    exact absurd hslot (by simp)
  | handle weak given leads seated packs =>
    exact ⟨leads, fun _ ↦ ⟨_, _, hroot, seated.handle, leads.sound.denotes_word packs weak⟩⟩
  | pointer strong switched =>
    refine ⟨switched.leads, fun hy ↦ ?_⟩
    obtain ⟨r', h, hr', ht⟩ := hy
    obtain rfl := Option.some.inj (hr'.symm.trans switched.alters.record)
    exact absurd ht (by simp [shownAs])
  | weak weak given leads seated switched =>
    have hleads := switched.leads
    refine ⟨leads.trans hleads, fun _ ↦ ⟨_, _, ?_, seated.handle.congr switched.alters.host
      hleads.registry hleads.domain, hleads.sound.denotes_userdata switched.alters.record rfl⟩⟩
    rw [hleads.registry]
    exact hroot

/-- **A cast** yields nil, a value of the object that was asked about, or a failure. -/
theorem keeps_castValue (hw : w.Sound R) (x : Value) (target : Nat)
    (hsingle : ∀ v a, w.resolve x = .live v →
      w.binding.registry.toDerived? w.host.memory v target = some a →
      w.binding.registry.isWeak target = true → w.Single ⟨a, target⟩) :
    Keeps R K (castValue x target)
      (fun y w' ↦ w'.Weak y → ∃ v, w.resolve x = .live v ∧ w'.Stands v y) w := by
  have hrefl := World.Leads.refl (K := K) hw
  refine ends_castValue_cases (fun _ ↦ ⟨hrefl, fun h ↦ h.elim⟩) (fun _ ↦ hrefl) (fun v hv _ ↦ ?_)
    (fun v a hv howned hother hdown ↦ ?_) fun _ _ _ _ ↦ hrefl
  · refine ⟨hrefl, fun hx ↦ ?_⟩
    obtain ⟨h, hh, hd⟩ := hw.denotes_of_resolve hx hv
    exact ⟨v, hv, v, h, rfl, hh, hd⟩
  · refine (ends_castDown (K := K) hw hv howned hother hdown (hsingle v a hv hdown)).imp
      (fun y w' h ↦ ?_) fun _ w' h ↦ ?_
    · obtain ⟨hleads, hstands⟩ := keeps_downcast hw hdown h
      exact ⟨hleads, fun hy ↦ ⟨v, hv, hstands hy⟩⟩
    · obtain rfl | ⟨hleads, -⟩ := h
      · exact hrefl
      · exact hleads

theorem keeps_cast (hw : w.Sound R) (idx : Int) (target : Nat)
    (hsingle : ∀ v a, w.resolve (w.binding.machine.valueAt idx) = .live v →
      w.binding.registry.toDerived? w.host.memory v target = some a →
      w.binding.registry.isWeak target = true → w.Single ⟨a, target⟩) :
    Keeps R K (cast idx target)
      (fun _ w' ↦ ∃ y, w'.top? = some y ∧
        (w'.Weak y → ∃ v, w.resolve (w.binding.machine.valueAt idx) = .live v ∧ w'.Stands v y)) w := by
  simp only [Keeps, cast, ends_bind, ends_valueAt]
  refine Ends.imp (keeps_castValue (K := K) hw _ target hsingle) (fun y w₁ h ↦ ?_) fun _ _ h ↦ h
  exact ⟨h.1.pushing y, y, w₁.top?_pushing y, h.2⟩

end Exec

end ObjectBridge
