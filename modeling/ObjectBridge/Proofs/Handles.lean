import ObjectBridge.Proofs.Changes
import ObjectBridge.Proofs.PackedWords

/-!
# Values of weak objects

A value of a weak object is a word in the slot of a weak family or a userdata whose record finds its
object by a handle (`World.Weak`). When it is made, the object has the handle that the value denotes
(`World.Sound.denotes_of_resolve`), and whatever happens afterwards, the value leads to an object only
if the slot of that handle is still occupied under the serial of the handle, and only to the object in
the slot (`World.Sound.holds_of_resolve`).
-/

namespace ObjectBridge

namespace WeakTable

theorem resolveNarrow_eq_some {t : WeakTable} {i n : Nat} {v : View}
    (h : t.resolveNarrow i n = some v) : ∃ m, t.Holds i m v ∧ m % serialBound = n := by
  rw [resolveNarrow] at h
  cases hs : t.slots[i]? with
  | none => simp [hs] at h
  | some s =>
    obtain ⟨view, serial⟩ := s
    simp only [hs] at h
    split at h
    · rename_i hn
      exact ⟨serial, by rw [Holds, hs, h], hn⟩
    · exact absurd h (by simp)

end WeakTable

namespace Registry

variable {r : Registry}

/-- A weak object has an anchor. -/
theorem Sound.exists_anchorCell? (hs : r.Sound) {v : View} (hweak : r.isWeak v.type = true) :
    ∃ offset, (r.get? v.type).bind (·.anchor) = some offset ∧
      r.anchorCell? v = some ((r.root v).address.up offset) := by
  obtain ⟨d, hd⟩ : ∃ d, r.get? v.type = some d := by
    rw [isWeak] at hweak
    cases hd : r.get? v.type with
    | none => simp [hd] at hweak
    | some d => exact ⟨d, rfl⟩
  obtain ⟨offset, hoffset⟩ : ∃ offset, d.anchor = some offset := by
    rw [isWeak_eq hd, Descriptor.isWeak, ← hs.isSome_anchor hd] at hweak
    exact Option.isSome_iff_exists.1 hweak
  have hanchor : (r.get? v.type).bind (·.anchor) = some offset := by
    rw [hd, Option.bind_some, hoffset]
  exact ⟨offset, hanchor, by rw [anchorCell?, hanchor, Option.map_some]⟩

/-- The object of a weak type is the same object seen as a derived type. -/
theorem Sound.identity_eq (hs : r.Sound) {u v : View} {offset : Nat}
    (hline : (v.type, offset) ∈ r.views u.type) (hroot : r.root v = r.root u)
    (hweak : r.isWeak v.type = true) (hu : (r.get? u.type).isSome = true) :
    r.identity u = r.identity v := by
  obtain ⟨_, -, hcell⟩ := hs.exists_anchorCell? hweak
  exact Prod.ext ((hs.anchorCell?_eq hline hroot hu hcell).trans hcell.symm) hroot.symm

theorem isSome_of_anchorCell? {v : View} {c : Address} (h : r.anchorCell? v = some c) :
    (r.get? v.type).isSome = true := by
  obtain ⟨n, hn, -⟩ := Option.map_eq_some_iff.1 h
  obtain ⟨d, hd, -⟩ := Option.bind_eq_some_iff.1 hn
  rw [hd]
  rfl

/-- **A word of a weak family leads to what occupies the slot of its index**, if that is of the family,
under a serial that the word cannot tell from its own. -/
theorem holds_of_weakFamily {t : WeakTable} {word : UInt64} {root : Nat} {v : View}
    (hslot : r.lightSlot? word = some (.weakFamily root)) (hv : r.resolveWord? t word = some v) :
    (r.get? v.type).bind (·.weakRoot) = some root ∧
      ∃ n, t.Holds (LightWord.index word) n v ∧ n % serialBound = LightWord.serial word := by
  rw [resolveWord?, hslot] at hv
  dsimp only at hv
  cases hn : t.resolveNarrow (LightWord.index word) (LightWord.serial word) with
  | none => simp [hn] at hv
  | some u =>
    simp only [hn] at hv
    split at hv
    · rename_i hfamily
      obtain rfl := Option.some.inj hv
      exact ⟨hfamily, WeakTable.resolveNarrow_eq_some hn⟩
    · exact absurd hv (by simp)

end Registry

namespace World

variable {R : Realm} {K : Set CacheKey} {w w' : World} {v : View} {h : Handle} {x : Value}

/-! ### Handles of objects -/

/-- The anchor of the object seen as `v` is of that object alone: a slot that is owned by the anchor
is occupied by a view of the same object. -/
def Single (w : World) (v : View) : Prop :=
  ∀ {i n u}, w.weakTable.Holds i n u →
    w.binding.registry.anchorCell? u = w.binding.registry.anchorCell? v →
    w.binding.registry.root u = w.binding.registry.root v

/-- The handle of the object seen as `v`: the anchor of the object owns the slot of the handle, and the
slot is occupied by the object under the serial of the handle. -/
def HandleOf (w : World) (v : View) (h : Handle) : Prop :=
  ∃ c u, w.binding.registry.anchorCell? v = some c ∧
    w.host.memory.anchor c = ⟨some h.index, some w.binding.domain⟩ ∧
    w.weakTable.Holds h.index h.serial u ∧
    w.binding.registry.identity u = w.binding.registry.identity v

theorem HandleOf.serial_lt (hh : w.HandleOf v h) (hw : w.Sound R) :
    h.serial < w.weakTable.nextSerial := by
  obtain ⟨c, u, -, -, hu, -⟩ := hh
  exact (hw.anchored.sound hw.weakTable?).lt_of_holds hu

/-- An object has one handle. -/
theorem HandleOf.unique {h' : Handle} (hh : w.HandleOf v h) (hh' : w.HandleOf v h') : h = h' := by
  obtain ⟨c, u, hc, ha, hu, -⟩ := hh
  obtain ⟨c', u', hc', ha', hu', -⟩ := hh'
  obtain rfl := Option.some.inj (hc.symm.trans hc')
  have hindex : h.index = h'.index := by
    have hanchor := ha.symm.trans ha'
    simpa using hanchor
  rw [hindex] at hu
  have hserial := (hu.unique hu').1
  calc h = ⟨h.index, h.serial⟩ := rfl
    _ = ⟨h'.index, h'.serial⟩ := by rw [hindex, hserial]

theorem Single.host (hs : w.Single v) (hw : w.Sound R) :
    w.host.Single R w.binding.domain v := by
  intro t i n u ht hh hcell
  have ht' : t = w.weakTable := (Option.some.inj (hw.weakTable?.symm.trans ht)).symm
  rw [hw.registry] at hcell ⊢
  exact hs (ht' ▸ hh) hcell

theorem HandleOf.congr (hh : w.HandleOf v h) (hhost : w'.host = w.host)
    (hregistry : w'.binding.registry = w.binding.registry)
    (hdomain : w'.binding.domain = w.binding.domain) : w'.HandleOf v h := by
  rw [HandleOf, World.weakTable, hregistry, hdomain, hhost]
  exact hh

/-- The slot that an object has been given is that of its anchor. -/
theorem Sound.handleOf_of_holds (hw : w.Sound R) {u : View}
    (hu : w.weakTable.Holds h.index h.serial u)
    (hidentity : w.binding.registry.identity u = w.binding.registry.identity v) :
    w.HandleOf v h := by
  obtain ⟨c, hc, ha⟩ := hw.anchored.anchor_of_slot hw.weakTable? hu
  rw [hw.registry] at hc
  exact ⟨c, u, (congrArg Prod.fst hidentity).symm.trans hc, ha, hu, hidentity⟩

/-- An object that has a handle has its anchor for itself. -/
theorem HandleOf.single (hh : w.HandleOf v h) (hw : w.Sound R) : w.Single v := by
  intro i n u hu hcell
  obtain ⟨c, u', hc, ha, hu', hidentity⟩ := hh
  obtain ⟨c', hc', ha'⟩ := hw.anchored.anchor_of_slot hw.weakTable? hu
  rw [hw.registry] at hc'
  obtain rfl : c' = c := Option.some.inj ((hc'.symm.trans hcell).trans hc)
  have hindex : i = h.index := by
    have hanchor := ha'.symm.trans ha
    simpa using hanchor
  rw [hindex] at hu
  rw [(hu.unique hu').2]
  exact congrArg Prod.snd hidentity

/-! ### What values lead to -/

/-- A word leads to an object if packed words are allowed for, and the table has the object. -/
theorem resolve_word {word : UInt64} : w.resolve (.word word) = .live v ↔
    w.binding.settings.lightUserdata = true ∧
      w.binding.registry.resolveWord? w.weakTable word = some v := by
  cases hlight : w.binding.settings.lightUserdata with
  | false => simp [resolve, hlight]
  | true =>
    simp only [resolve, hlight, if_true, resolveWord, true_and]
    cases w.binding.registry.resolveWord? w.weakTable word with
    | some _ => simp
    | none => cases w.binding.registry.staleType? w.weakTable word <;> simp

variable {id : Nat} {r : Record}

theorem resolve_userdata (hr : w.record? id = some r) :
    w.resolve (.userdata id) = w.resolveRecord r := by
  have hmachine : w.binding.machine.record? id = some r := hr
  simp only [resolve, hmachine]

/-- A record with an address leads to it. -/
theorem resolve_of_pointer (hr : w.record? id = some r) {shown : Nat} {a : Address}
    (he : r.exposed = .declared shown) (ht : r.target = .pointer a) :
    w.resolve (.userdata id) = .live ⟨a, shown⟩ := by
  simp only [resolve_userdata hr, resolveRecord, he, ht]

/-- A record with a handle leads to the object in the slot, as far as that is of the shown type. -/
theorem resolve_of_handle (hr : w.record? id = some r) {shown : Nat}
    (he : r.exposed = .declared shown) (ht : r.target = .weak h) :
    w.resolve (.userdata id) = .live v ↔ v.type = shown ∧ ∃ u,
      w.weakTable.Holds h.index h.serial u ∧
        w.binding.registry.toSuper? u shown = some v.address := by
  simp only [resolve_userdata hr, resolveRecord, he, ht, Host.resolveHandle?]
  rw [← weakTable]
  cases hu : w.weakTable.resolve h with
  | none =>
    refine iff_of_false (by simp) ?_
    rintro ⟨-, u, hu', -⟩
    exact absurd (hu.symm.trans (w.weakTable.resolve_eq_some_iff.2 hu')) (by simp)
  | some u =>
    have hholds := w.weakTable.resolve_eq_some_iff.1 hu
    have hslot : (∃ u', w.weakTable.Holds h.index h.serial u' ∧
        w.binding.registry.toSuper? u' shown = some v.address) ↔
          w.binding.registry.toSuper? u shown = some v.address := by
      constructor
      · rintro ⟨u', hu', ha⟩
        rwa [(hholds.unique hu').2]
      · exact fun ha ↦ ⟨u, hholds, ha⟩
    rw [hslot]
    cases ha : w.binding.registry.toSuper? u shown with
    | none => simp [ha]
    | some a =>
      simp only [ha, Resolved.live.injEq, Option.some.injEq]
      constructor
      · rintro rfl
        exact ⟨rfl, rfl⟩
      · rintro ⟨rfl, rfl⟩
        rfl

/-! ### Values with handles -/

/-- A value of a weak object. -/
def Weak (w : World) : Value → Prop
  | .word word => ∃ root, w.binding.registry.lightSlot? word = some (.weakFamily root)
  | .userdata id => ∃ r h, w.record? id = some r ∧ r.target = .weak h
  | _ => False

/-- A value that was made for a handle: a word keeps of the serial what fits. -/
def Denotes (w : World) (h : Handle) : Value → Prop
  | .word word => (∃ root, w.binding.registry.lightSlot? word = some (.weakFamily root)) ∧
      LightWord.index word = h.index ∧ LightWord.serial word = h.serial % serialBound
  | .userdata id => ∃ r, w.record? id = some r ∧ r.Carries w.binding.registry h
  | _ => False

/-- A packed handle is denoted by its word. -/
theorem Sound.denotes_word (hw : w.Sound R) {type : Nat} {word : UInt64}
    (hpacked : w.binding.registry.packWeak? h type = some word)
    (hweak : w.binding.registry.isWeak type = true) : w.Denotes h (.word word) := by
  obtain ⟨⟨root, -, hroot⟩, hfields⟩ := hw.registrySound.fields_packWeak hpacked hweak
  exact ⟨⟨root, hroot⟩, hfields⟩

/-- The handle of a record is denoted by its userdata. -/
theorem Sound.denotes_userdata (hw : w.Sound R) {id : Nat} {r : Record}
    (hr : w.record? id = some r) (ht : r.target = .weak h) : w.Denotes h (.userdata id) :=
  ⟨r, hr, (hw.binding.proper hr).carries ht⟩

/-- **A value that leads to a weak object denotes the handle of the object.** -/
theorem Sound.denotes_of_resolve (hw : w.Sound R) (hx : w.Weak x) (hv : w.resolve x = .live v) :
    ∃ h, w.HandleOf v h ∧ w.Denotes h x := by
  cases x with
  | word word =>
    obtain ⟨root, hroot⟩ := hx
    obtain ⟨-, n, hu, hserial⟩ := Registry.holds_of_weakFamily hroot (resolve_word.1 hv).2
    exact ⟨⟨LightWord.index word, n⟩, hw.handleOf_of_holds hu rfl, ⟨root, hroot⟩, rfl, hserial.symm⟩
  | userdata id =>
    obtain ⟨r, h, hr, ht⟩ := hx
    obtain ⟨type, he, hweak⟩ := (hw.binding.proper hr).exposes ht
    obtain ⟨rfl, u, hu, ha⟩ := (resolve_of_handle hr he ht).1 hv
    obtain ⟨offset, hline, -⟩ := hw.registrySound.toSuper?_eq_some_iff.1 ha
    obtain ⟨c, hc, -⟩ := hw.anchored.anchor_of_slot hw.weakTable? hu
    rw [hw.registry] at hc
    have hidentity : w.binding.registry.identity u = w.binding.registry.identity v :=
      hw.registrySound.identity_eq hline (hw.registrySound.root_toSuper ha) hweak
        (Registry.isSome_of_anchorCell? hc)
    exact ⟨h, hw.handleOf_of_holds hu hidentity, hw.denotes_userdata hr ht⟩
  | _ => exact absurd hx (by simp [Weak])

/-- **A value leads to the object in the slot of its handle, or to none.** A word tells only the last
bits of the serial, so for words the serials must not have come around. -/
theorem Sound.holds_of_resolve (hw : w.Sound R) (hd : w.Denotes h x)
    (hlt : h.serial < w.weakTable.nextSerial)
    (hbound : ∀ word, x = .word word → w.weakTable.nextSerial ≤ serialBound)
    (hv : w.resolve x = .live v) :
    ∃ u, w.weakTable.Holds h.index h.serial u ∧
      w.binding.registry.root v = w.binding.registry.root u := by
  have hx : w.Weak x := by
    cases x with
    | word word => exact hd.1
    | userdata id =>
      obtain ⟨r, hr, -, ht | ht⟩ := hd
      · exact ⟨r, h, hr, ht⟩
      · rw [resolve_userdata hr, resolveRecord, ht] at hv
        split at hv <;> simp_all
    | _ => exact hd
  obtain ⟨h', ⟨c, u, -, -, hu, hidentity⟩, hd'⟩ := hw.denotes_of_resolve hx hv
  have hroot : w.binding.registry.root v = w.binding.registry.root u :=
    (congrArg Prod.snd hidentity).symm
  have hsame : h' = h := by
    cases x with
    | word word =>
      have hb := hbound word rfl
      have hlt' := (hw.anchored.sound hw.weakTable?).lt_of_holds hu
      have hindex : h'.index = h.index := hd'.2.1.symm.trans hd.2.1
      have hserial : h'.serial % serialBound = h.serial % serialBound :=
        hd'.2.2.symm.trans hd.2.2
      rw [Nat.mod_eq_of_lt (Nat.lt_of_lt_of_le hlt' hb),
        Nat.mod_eq_of_lt (Nat.lt_of_lt_of_le hlt hb)] at hserial
      calc h' = ⟨h'.index, h'.serial⟩ := rfl
        _ = ⟨h.index, h.serial⟩ := by rw [hindex, hserial]
    | userdata id =>
      obtain ⟨r, hr, -, ht | ht⟩ := hd
      · obtain ⟨r', hr', -, ht' | ht'⟩ := hd'
        · obtain rfl := Option.some.inj (hr.symm.trans hr')
          exact Target.weak.inj (ht'.symm.trans ht)
        · obtain rfl := Option.some.inj (hr.symm.trans hr')
          exact absurd (ht.symm.trans ht') (by simp)
      · obtain ⟨r', _, hr', ht'⟩ := hx
        obtain rfl := Option.some.inj (hr.symm.trans hr')
        exact absurd (ht.symm.trans ht') (by simp)
    | _ => exact hx.elim
  exact ⟨u, hsame ▸ hu, hroot⟩

end World

end ObjectBridge
