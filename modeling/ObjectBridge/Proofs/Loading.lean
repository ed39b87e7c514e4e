import ObjectBridge.Proofs.Accuracy

/-!
# Loading what has been pushed

What is loaded from a value that stands for the object seen as `v`, as the type of `v`, is either
`v` or nothing: every value that is pushed for the object leads to a view with the same root
(`World.loadsIf_of_root`). It is nothing when the view has lost its object, or is not of the type.

`World.Obscured w v` lists how that comes about. The object lies at the root of one that a userdata
owns and shows as something else; its slot records a type that has nothing to do with the pushed
one; or the userdata that is remembered for it would be used again, but leads to no object any more.
-/

namespace ObjectBridge

namespace Registry

variable {r : Registry}

/-- A view leads to the one view of its object that has a type, if that is a base of its own. -/
theorem Sound.toSuper?_eq_some_of_root (hs : r.Sound) {u v : View}
    (hroot : (r.root u).address = (r.root v).address) {b : Address} :
    r.toSuper? u v.type = some b ↔ b = v.address ∧ r.isBaseOf v.type u.type = true := by
  have hsame : ∀ {a}, r.toSuper? u v.type = some a → a = v.address := fun {a} ha ↦ by
    have haddress : (r.root ⟨a, v.type⟩).address = (r.root ⟨v.address, v.type⟩).address := by
      rw [hs.root_toSuper ha, hroot]
    exact root_address_inj haddress
  constructor
  · intro hb
    obtain ⟨offset, hm, -⟩ := hs.toSuper?_eq_some_iff.1 hb
    exact ⟨hsame hb, isBaseOf_iff.2 ⟨offset, hm⟩⟩
  · rintro ⟨rfl, hbase⟩
    obtain ⟨offset, hm⟩ := isBaseOf_iff.1 hbase
    have ha := hs.toSuper?_eq_some_iff.2 ⟨offset, hm, rfl⟩
    rw [ha, hsame ha]

/-- The word of a handle leads to what is in the slot, if that is of the family of the word. -/
theorem Sound.resolveWord?_packWeak (hs : r.Sound) {h : Handle} {type : Nat} {word : UInt64}
    (hpacked : r.packWeak? h type = some word) (hweak : r.isWeak type = true) {t : WeakTable}
    {u : View} (hu : t.Holds h.index h.serial u) :
    r.resolveWord? t word =
      if (r.get? u.type).bind (·.weakRoot) = (r.get? type).bind (·.weakRoot) then some u
      else none := by
  obtain ⟨⟨root, hroot, hslot⟩, hindex, hserial⟩ := hs.fields_packWeak hpacked hweak
  have hnarrow : t.resolveNarrow h.index (h.serial % serialBound) = some u := by
    have hu' : t.slots[h.index]? = some ⟨some u, h.serial⟩ := hu
    simp only [WeakTable.resolveNarrow, hu', if_true]
  simp only [resolveWord?, hslot, hindex, hserial, hnarrow, hroot]

/-- The types derived from a weak type are of its family. -/
theorem Sound.weakRoot_eq_of_isBaseOf (hs : r.Sound) {a b : Nat} (h : r.isBaseOf a b = true)
    (hweak : r.isWeak a = true) :
    (r.get? b).bind (·.weakRoot) = (r.get? a).bind (·.weakRoot) := by
  by_cases hne : a = b
  · rw [hne]
  obtain ⟨d, hd⟩ := exists_of_isBaseOf hs h hne
  obtain ⟨offset, hm⟩ := isBaseOf_iff.1 h
  obtain ⟨d', hd'⟩ := hs.get?_of_mem_views hd hm
  rw [isWeak_eq hd', Descriptor.isWeak, Option.isSome_iff_exists] at hweak
  obtain ⟨root, hroot⟩ := hweak
  rw [hd, hd', Option.bind_some, Option.bind_some, hroot, hs.weakRoot_eq hm hd hd' hroot]

end Registry

namespace World

variable {R : Realm} {w w' : World} {v u : View} {x : Value} {h : Handle} {id : Nat} {r : Record}
  {P P' : Prop}

theorem loadAs?_eq_some {type : Nat} {b : Address} : w.loadAs? x type = some b ↔
    ∃ u, w.resolve x = .live u ∧ w.binding.registry.toSuper? u type = some b := by
  rw [loadAs?]
  cases w.resolve x <;> simp

/-- **Loading a value as the type of `v`** yields `v` if `P`, and nothing otherwise. -/
def LoadsIf (w : World) (x : Value) (v : View) (P : Prop) : Prop :=
  ∀ b, w.loadAs? x v.type = some b ↔ b = v.address ∧ P

theorem LoadsIf.congr (hl : w.LoadsIf x v P) (h : P ↔ P') : w.LoadsIf x v P' :=
  fun b ↦ (hl b).trans (and_congr_right fun _ ↦ h)

/-- **A value that leads to views with the root of `v` only** is loaded as `v`, or as nothing. -/
theorem loadsIf_of_root (hw : w.Sound R)
    (hroot : ∀ u, w.resolve x = .live u → w.rootOf u = w.rootOf v) : w.LoadsIf x v
      (∃ u, w.resolve x = .live u ∧ w.binding.registry.isBaseOf v.type u.type = true) := by
  intro b
  rw [loadAs?_eq_some]
  constructor
  · rintro ⟨u, hu, hb⟩
    obtain ⟨rfl, hbase⟩ := (hw.registrySound.toSuper?_eq_some_of_root (hroot u hu)).1 hb
    exact ⟨rfl, u, hu, hbase⟩
  · rintro ⟨rfl, u, hu, hbase⟩
    exact ⟨u, hu, (hw.registrySound.toSuper?_eq_some_of_root (hroot u hu)).2 ⟨rfl, hbase⟩⟩

/-! ### What values lead to -/

/-- A record with a handle leads to an object exactly if the object has been seen as what it shows.
-/
theorem live_of_handle_iff (hw : w.Sound R) (hr : w.record? id = some r) {shown : Nat}
    (he : r.exposed = .declared shown) (ht : r.target = .weak h)
    (hu : w.weakTable.Holds h.index h.serial u) :
    (∃ v, w.resolve (.userdata id) = .live v) ↔
      w.binding.registry.isBaseOf shown u.type = true := by
  have hs := hw.registrySound
  constructor
  · rintro ⟨v, hv⟩
    obtain ⟨-, u', hu', ha⟩ := (resolve_of_handle hr he ht).1 hv
    obtain ⟨offset, hm, -⟩ := hs.toSuper?_eq_some_iff.1 ha
    rw [(hu.unique hu').2]
    exact Registry.isBaseOf_iff.2 ⟨offset, hm⟩
  · intro hbase
    obtain ⟨offset, hm⟩ := Registry.isBaseOf_iff.1 hbase
    exact ⟨⟨u.address.up offset, shown⟩, (resolve_of_handle hr he ht).2
      ⟨rfl, u, hu, hs.toSuper?_eq_some_iff.2 ⟨offset, hm, rfl⟩⟩⟩

/-- What a live userdata shows. -/
theorem exposed_of_live (hr : w.record? id = some r) (hu : w.resolve (.userdata id) = .live u) :
    r.exposed = .declared u.type := by
  obtain ⟨r', hr', he, -⟩ := exposed_of_resolve hu
  rwa [Option.some.inj (hr.symm.trans hr')]

/-! ### Loading -/

/-- A record with an address in the object loads as every base of what it shows. -/
theorem loadsIf_pointer (hw : w.Sound R) (hr : w.record? id = some r) {shown : Nat} {a : Address}
    (he : r.exposed = .declared shown) (ht : r.target = .pointer a)
    (hroot : w.rootOf ⟨a, shown⟩ = w.rootOf v) :
    w.LoadsIf (.userdata id) v (w.binding.registry.isBaseOf v.type shown = true) := by
  have hlive := resolve_of_pointer hr he ht
  refine (loadsIf_of_root hw fun u hu ↦ ?_).congr ?_
  · obtain rfl := Resolved.live.inj (hlive.symm.trans hu)
    exact hroot
  · constructor
    · rintro ⟨u, hu, hbase⟩
      obtain rfl := Resolved.live.inj (hlive.symm.trans hu)
      exact hbase
    · exact fun hbase ↦ ⟨_, hlive, hbase⟩

/-- A record with the handle of the object loads as every base of what it shows, if the object has
been seen as that. -/
theorem loadsIf_handle (hw : w.Sound R) (hr : w.record? id = some r) {shown : Nat}
    (he : r.exposed = .declared shown) (ht : r.target = .weak h)
    (hu : w.weakTable.Holds h.index h.serial u) (hroot : w.rootOf u = w.rootOf v) :
    w.LoadsIf (.userdata id) v (w.binding.registry.isBaseOf shown u.type = true ∧
      w.binding.registry.isBaseOf v.type shown = true) := by
  have hs := hw.registrySound
  refine (loadsIf_of_root hw fun u' hu' ↦ ?_).congr ?_
  · obtain ⟨rfl, u₀, hu₀, ha⟩ := (resolve_of_handle hr he ht).1 hu'
    rw [← hroot, (hu.unique hu₀).2, rootOf, rootOf, ← hs.root_toSuper ha]
  · constructor
    · rintro ⟨u', hu', hbase⟩
      obtain ⟨rfl, u₀, hu₀, ha⟩ := (resolve_of_handle hr he ht).1 hu'
      obtain ⟨offset, hm, -⟩ := hs.toSuper?_eq_some_iff.1 ha
      rw [(hu.unique hu₀).2]
      exact ⟨Registry.isBaseOf_iff.2 ⟨offset, hm⟩, hbase⟩
    · rintro ⟨hshown, hbase⟩
      obtain ⟨offset, hm⟩ := Registry.isBaseOf_iff.1 hshown
      exact ⟨⟨u.address.up offset, shown⟩, (resolve_of_handle hr he ht).2
        ⟨rfl, u, hu, hs.toSuper?_eq_some_iff.2 ⟨offset, hm, rfl⟩⟩, hbase⟩

/-- A word with the handle of the object loads as every base of what the slot records. -/
theorem loadsIf_weakWord (hw : w.Sound R) (hlight : w.binding.settings.lightUserdata = true)
    {word : UInt64} (hweak : w.binding.registry.isWeak v.type = true)
    (hpacked : w.binding.registry.packWeak? h v.type = some word)
    (hu : w.weakTable.Holds h.index h.serial u) (hroot : w.rootOf u = w.rootOf v) :
    w.LoadsIf (.word word) v (w.binding.registry.isBaseOf v.type u.type = true) := by
  have hs := hw.registrySound
  have hword := hs.resolveWord?_packWeak hpacked hweak hu
  have hlive : ∀ u', w.resolve (.word word) = .live u' ↔
      w.binding.registry.resolveWord? w.weakTable word = some u' := fun _ ↦
    resolve_word.trans (and_iff_right hlight)
  refine (loadsIf_of_root hw fun u' hu' ↦ ?_).congr ?_
  · have hslot := (hlive u').1 hu'
    rw [hword] at hslot
    split at hslot
    · rwa [← Option.some.inj hslot]
    · exact absurd hslot (by simp)
  · constructor
    · rintro ⟨u', hu', hbase⟩
      have hslot := (hlive u').1 hu'
      rw [hword] at hslot
      split at hslot
      · rwa [← Option.some.inj hslot] at hbase
      · exact absurd hslot (by simp)
    · intro hbase
      refine ⟨u, (hlive u).2 ?_, hbase⟩
      rw [hword, if_pos (hs.weakRoot_eq_of_isBaseOf hbase hweak)]

/-- A word with the address of the object loads as the type it was packed for. -/
theorem loadsIf_word (hw : w.Sound R) (hlight : w.binding.settings.lightUserdata = true)
    {word : UInt64} (hweak : w.binding.registry.isWeak v.type = false)
    (hpacked : w.binding.registry.packPointer? v = some word) (hne : v.address ≠ 0) :
    w.LoadsIf (.word word) v True := by
  have hword := hw.registrySound.resolveWord?_packPointer hpacked hweak hne w.weakTable
  have hlive : w.resolve (.word word) = .live v := resolve_word.2 ⟨hlight, hword⟩
  refine (loadsIf_of_root hw fun u hu ↦ ?_).congr (iff_of_true ?_ trivial)
  · rw [Resolved.live.inj (hlive.symm.trans hu)]
  · exact ⟨v, hlive, hw.registrySound.isBaseOf_refl _⟩

/-! ### What keeps an object from being loaded -/

/-- **What stands for the object seen as `v` cannot be loaded as its type.** -/
inductive Obscured (w : World) (v : View) : Prop
  /-- A userdata owns an object with the same root, and shows it as something else. -/
  | owned {id : Nat} {r : Record} {shown : Nat} (there : w.Remembers (.owned (w.rootOf v)) id)
      (record : w.record? id = some r) (exposes : r.exposed = .declared shown)
      (other : w.binding.registry.isBaseOf v.type shown = false)
  /-- The object has been seen as something that has nothing to do with `v`. -/
  | slot {h : Handle} {u : View} (weak : w.binding.registry.isWeak v.type = true)
      (unowned : ∀ id, ¬ w.Remembers (.owned (w.rootOf v)) id) (handle : w.HandleOf v h)
      (seen : w.weakTable.Holds h.index h.serial u)
      (other : ¬ w.binding.registry.Comparable u.type v.type)
  /-- The userdata with the handle of the object shows it as something that it has not been seen as.
  -/
  | weak {h : Handle} {id : Nat} {r : Record} (weak : w.binding.registry.isWeak v.type = true)
      (unowned : ∀ id, ¬ w.Remembers (.owned (w.rootOf v)) id) (handle : w.HandleOf v h)
      (unpacked : w.binding.settings.lightUserdata = true →
        w.binding.registry.packWeak? h v.type = none)
      (there : w.Remembers (.weak h.index) id) (record : w.record? id = some r)
      (target : r.target = .weak h) (lost : ∀ u, w.resolve (.userdata id) ≠ .live u)
  /-- The userdata that is remembered for the object shows it as `v` or as something more derived,
  but
  leads to it no longer. -/
  | borrowed {id : Nat} {r : Record} {shown : Nat}
      (strong : w.binding.registry.isWeak v.type = false)
      (unowned : ∀ id, ¬ w.Remembers (.owned (w.rootOf v)) id)
      (unpacked : w.binding.settings.lightUserdata = true →
        w.binding.registry.packPointer? v = none)
      (there : w.Remembers (.borrowed (w.rootOf v)) id) (record : w.record? id = some r)
      (exposes : r.exposed = .declared shown)
      (derived : w.binding.registry.isBaseOf v.type shown = true)
      (lost : ∀ u, w.resolve (.userdata id) ≠ .live u)

/-- What it takes to load a weak object that no userdata owns. -/
theorem not_obscured_weak (hweak : w.binding.registry.isWeak v.type = true)
    (hunowned : ∀ id, ¬ w.Remembers (.owned (w.rootOf v)) id) : ¬ w.Obscured v ↔
      (∀ {h u}, w.HandleOf v h → w.weakTable.Holds h.index h.serial u →
        w.binding.registry.Comparable u.type v.type) ∧
      ∀ {h id r}, w.HandleOf v h →
        (w.binding.settings.lightUserdata = true → w.binding.registry.packWeak? h v.type = none) →
        w.Remembers (.weak h.index) id → w.record? id = some r → r.target = .weak h →
          ∃ u, w.resolve (.userdata id) = .live u := by
  constructor
  · refine fun hclear ↦ ⟨fun hh hu ↦ ?_, fun hh hunpacked hm hr ht ↦ ?_⟩
    · by_contra hother
      exact hclear (.slot hweak hunowned hh hu hother)
    · by_contra hlost
      exact hclear (.weak hweak hunowned hh hunpacked hm hr ht fun u hu ↦ hlost ⟨u, hu⟩)
  · rintro ⟨hseen, hlive⟩ hobscured
    cases hobscured with
    | owned there _ _ _ => exact hunowned _ there
    | slot _ _ handle seen other => exact other (hseen handle seen)
    | weak _ _ handle unpacked there record target lost =>
      obtain ⟨u, hu⟩ := hlive handle unpacked there record target
      exact lost u hu
    | borrowed strong _ _ _ _ _ _ _ => exact absurd (hweak.symm.trans strong) (by simp)

/-- What it takes to load a borrowed object that no userdata owns. -/
theorem not_obscured_strong (hweak : w.binding.registry.isWeak v.type = false)
    (hunowned : ∀ id, ¬ w.Remembers (.owned (w.rootOf v)) id) : ¬ w.Obscured v ↔
      ((w.binding.settings.lightUserdata = true → w.binding.registry.packPointer? v = none) →
        ∀ {id r shown}, w.Remembers (.borrowed (w.rootOf v)) id → w.record? id = some r →
          r.exposed = .declared shown → w.binding.registry.isBaseOf v.type shown = true →
            ∃ u, w.resolve (.userdata id) = .live u) := by
  constructor
  · intro hclear hunpacked id r shown hm hr he hbase
    by_contra hlost
    exact hclear (.borrowed hweak hunowned hunpacked hm hr he hbase fun u hu ↦ hlost ⟨u, hu⟩)
  · intro hlive hobscured
    cases hobscured with
    | owned there _ _ _ => exact hunowned _ there
    | slot weak _ _ _ _ | weak weak _ _ _ _ _ _ _ => exact absurd (weak.symm.trans hweak) (by simp)
    | borrowed _ _ unpacked there record exposes derived lost =>
      obtain ⟨u, hu⟩ := hlive unpacked there record exposes derived
      exact lost u hu

end World

end ObjectBridge
