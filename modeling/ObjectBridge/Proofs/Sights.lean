import ObjectBridge.Proofs.Loading

/-!
# What values show

A value of an object shows the object as a type, and finds it by its address or by a handle: the value's
`Sight`. What a cast makes of a sight is told by the registry and the host (`Sight.cast`), and says
nothing of words or userdata.

A sight is in order if the object can be found as the very view that the value shows, and packed into a
word as any type to which it could be cast (`Sight.Clear`). A cast leaves such a sight in order
(`Sight.Clear.cast`): the object is given a slot when it is first shown as a weak type, and from then on
the slot records what the value shows.
-/

namespace ObjectBridge

/-- What a value shows: the object as a type, and how it finds it. -/
structure Sight where
  view : View
  target : Target
  deriving DecidableEq

/-- What a cast makes of a sight, and the host afterwards. -/
def Sight.cast (r : Registry) (domain : Nat) (h : Host) (s : Sight) (target : Nat) :
    Except Failure (Sight × Host) :=
  if r.isBaseOf target s.view.type then .ok (s, h)
  else
    let invalid : Failure := .invalidCast (r.nameOf s.view.type) (r.nameOf target)
    match r.toDerived? h.memory s.view target with
    | none => .error invalid
    | some a =>
      if r.isWeak target then
        match h.weakHandle? r domain ⟨a, target⟩ with
        | some (handle, h') => .ok (⟨⟨a, target⟩, .weak handle⟩, h')
        | none => .error invalid
      else .ok (⟨⟨a, target⟩, .pointer a⟩, h)

/-! ### Objects that fit into words -/

namespace Registry

variable {r : Registry} {m : Memory} {v : View} {target : Nat} {a : Address}

/-- Every type has a slot of packed words. -/
def AllLight (r : Registry) : Prop :=
  ∀ {id d}, r.get? id = some d → d.lightSlot ≠ 0

/-- The address of an object fits into a word below the slot, and below it there is room for whatever the
object may be a part of. -/
structure Packable (r : Registry) (v : View) : Prop where
  lt : v.address.toNat < 2 ^ 56
  above : ∀ {target offset}, (v.type, offset) ∈ r.views target → offset < v.address.toNat

instance (r : Registry) : Decidable r.AllLight :=
  decidable_of_iff (r.types.all (fun d ↦ d.lightSlot ≠ 0) = true) <| by
    simp only [AllLight, Array.all_eq_true, decide_eq_true_eq]
    constructor
    · intro h id d hd
      obtain ⟨hlt, rfl⟩ := Array.getElem?_eq_some_iff.1 hd
      exact h id hlt
    · exact fun h id hlt ↦ h (Array.getElem?_eq_getElem hlt)

/-- Below the address of an object there is room for what it may be a part of, if there is for the types of
the registry. -/
theorem packable_of_types (hlt : v.address.toNat < 2 ^ 56) (hne : 0 < v.address.toNat)
    (h : ∀ target < r.types.size, ∀ line ∈ r.views target, line.1 = v.type →
      line.2 < v.address.toNat) : r.Packable v where
  lt := hlt
  above {target offset} hline := by
    by_cases htarget : target < r.types.size
    · exact h target htarget _ hline rfl
    · -- A number that is no type has no bases.
      have hnone : r.get? target = none := Array.getElem?_eq_none (Nat.le_of_not_lt htarget)
      simp only [views, viewsFrom, hnone, Option.bind_none, List.mem_singleton] at hline
      rw [(Prod.mk.inj hline).2]
      exact hne

theorem AllLight.slotOf? (h : r.AllLight) {id : Nat} (hid : (r.get? id).isSome = true) :
    ∃ slot, r.slotOf? id = some slot := by
  obtain ⟨d, hd⟩ := Option.isSome_iff_exists.1 hid
  exact ⟨d.lightSlot, by simp [Registry.slotOf?, hd, h hd]⟩

/-- The address of an object that fits into a word is packed. -/
theorem AllLight.packPointer? (h : r.AllLight) (hid : (r.get? v.type).isSome = true)
    (hv : r.Packable v) : ∃ word, r.packPointer? v = some word := by
  obtain ⟨slot, hslot⟩ := h.slotOf? hid
  have hzero : LightWord.slot v.address = 0 := by
    rw [LightWord.slot_eq]
    exact Nat.div_eq_of_lt hv.lt
  simp only [Registry.packPointer?, hslot, hzero, if_true]
  exact ⟨_, rfl⟩

/-- A handle that is not too large is packed. -/
theorem AllLight.packWeak? (h : r.AllLight) {id : Nat} (hid : (r.get? id).isSome = true) {handle : Handle}
    (hindex : handle.index ≤ LightWord.maxIndex) : ∃ word, r.packWeak? handle id = some word := by
  obtain ⟨slot, hslot⟩ := h.slotOf? hid
  simp only [Registry.packWeak?, if_neg (Nat.not_lt.2 hindex), hslot]
  exact ⟨_, rfl⟩

/-- An object that is found is not at address zero. -/
theorem Packable.ne_zero (hs : r.Sound) (hv : r.Packable v) : v.address ≠ 0 := by
  have hpos := hv.above (hs.mem_views_self v.type)
  intro hzero
  rw [hzero] at hpos
  exact absurd hpos (by simp)

/-- What an object is cast down to fits into words as well. -/
theorem Packable.toDerived (hs : r.Sound) (hv : r.Packable v)
    (h : r.toDerived? m v target = some a) : r.Packable ⟨a, target⟩ := by
  obtain ⟨offset, hline, rfl⟩ := hs.toDerived?_eq_some h
  have hoffset := hv.above hline
  have hlt := hv.lt
  have hdown : (v.address.down offset).toNat = v.address.toNat - offset := by
    have hof : (UInt64.ofNat offset).toNat = offset := by
      rw [UInt64.toNat_ofNat']
      exact Nat.mod_eq_of_lt (by omega)
    rw [Address.down, UInt64.toNat_sub_of_le _ _ (by rw [UInt64.le_iff_toNat_le]; omega), hof]
  refine ⟨?_, fun {target' offset'} hline' ↦ ?_⟩
  · show (v.address.down offset).toNat < 2 ^ 56
    omega
  · show offset' < (v.address.down offset).toNat
    have habove := hv.above (hs.mem_views_trans hline hline')
    omega

end Registry

/-! ### Slots -/

namespace Host

variable {h : Host} {r : Registry} {d : Nat} {c : Address} {t : WeakTable} {u v : View} {handle : Handle}

/-- The registry with the table of `d` has given the object seen as `v` no slot. -/
def Unattached (h : Host) (r : Registry) (d : Nat) (v : View) : Prop :=
  ∀ {u c i}, r.root u = r.root v → r.anchorCell? u = some c →
    h.memory.anchor c ≠ ⟨some i, some d⟩

/-- An anchor that owns no slot is given the next one. -/
private theorem enter_allocate (ht : h.weakTable? d = some t) (hslot : (h.memory.anchor c).slot = none) :
    ∃ h', h.enter d c (weakAcquire r (h.weakTable d) (h.memory.anchor c).slot v) = (t.nextHandle, h') ∧
      h'.weakTable? d = some (t.allocate v) ∧ h'.memory.anchor c = ⟨some t.nextIndex, some d⟩ := by
  rw [hslot, weakTable_of_some ht, weakAcquire, Option.bind_none]
  refine ⟨_, rfl, ?_, ?_⟩
  · show (h.setWeakTable d (t.allocate v)).weakTable? d = _
    rw [weakTable?_setWeakTable ht, if_pos rfl]
  · show (h.memory.write c _).anchor c = _
    rw [Memory.anchor_write_anchor, if_pos rfl]
    rfl

/-- **An object without a slot is given the next one**, and the slot records the view. -/
theorem acquire_unattached (ht : h.weakTable? d = some t)
    (hc : ∀ i, h.memory.anchor c ≠ ⟨some i, some d⟩) :
    ∃ h', h.acquire r d c v = (t.nextHandle, h') ∧ h'.weakTable? d = some (t.allocate v) ∧
      h'.memory.anchor c = ⟨some t.nextIndex, some d⟩ := by
  by_cases howner : (h.memory.anchor c).owner = some d
  · rw [acquire_attached howner (by rw [ht]; rfl)]
    refine enter_allocate ht (Option.eq_none_iff_forall_ne_some.2 fun i hi ↦ hc i ?_)
    rw [← hi, ← howner]
  · rw [acquire_not_attached howner]
    exact enter_allocate ((weakTable?_detach_of_ne howner).trans ht) (slot_detach h c)

/-- **An object with a slot keeps it**, and the slot records the view if that is more derived. -/
theorem acquire_upgrade (ht : h.weakTable? d = some t)
    (hc : h.memory.anchor c = ⟨some handle.index, some d⟩) (hu : t.Holds handle.index handle.serial u)
    (hne : u.type ≠ v.type) (hbase : r.isBaseOf u.type v.type = true) :
    ∃ h', h.acquire r d c v = (handle, h') ∧ h'.weakTable? d = some (t.upgrade handle.index v) ∧
      h'.memory.anchor c = ⟨some handle.index, some d⟩ := by
  have hcurrent : t.current handle.index = some handle := t.current_eq_some_iff.2 ⟨rfl, u, hu⟩
  have hview : t.view? handle.index = some u := t.view?_eq_some_iff.2 ⟨_, hu⟩
  rw [acquire_attached (by rw [hc]) (by rw [ht]; rfl), weakTable_of_some ht, hc]
  simp only [weakAcquire, Option.bind_some, hcurrent, hview, ne_eq, hne, not_false_eq_true, hbase,
    and_self, if_true]
  refine ⟨_, rfl, ?_, ?_⟩
  · show (h.setWeakTable d (t.upgrade handle.index v)).weakTable? d = _
    rw [weakTable?_setWeakTable ht, if_pos rfl]
  · show (h.memory.write c _).anchor c = _
    rw [Memory.anchor_write_anchor, if_pos rfl]

/-- The handle of a weak object is that of its anchor. -/
theorem weakHandle?_of_anchorCell? (hc : r.anchorCell? v = some c) :
    h.weakHandle? r d v = some (h.acquire r d c v) := by
  obtain ⟨offset, hoffset, rfl⟩ := Option.map_eq_some_iff.1 hc
  simp only [weakHandle?, hoffset]

end Host

/-! ### Sights -/

namespace Sight

variable {r : Registry} {d : Nat} {h h' : Host} {s s' : Sight} {target : Nat}

/-- How an object is found: by its address, and then it can still be given a slot whose number fits
into a word, or by the handle of its slot, which records what is shown. -/
inductive Found (r : Registry) (d : Nat) (h : Host) : Sight → Prop
  | pointer {v : View} {t : WeakTable} (strong : r.isWeak v.type = false)
      (unattached : h.Unattached r d v) (table : h.weakTable? d = some t) (sound : t.Sound)
      (room : t.nextIndex ≤ LightWord.maxIndex) : Found r d h ⟨v, .pointer v.address⟩
  | weak {v : View} {handle : Handle} {t : WeakTable} {c : Address} (weak : r.isWeak v.type = true)
      (cell : r.anchorCell? v = some c) (anchor : h.memory.anchor c = ⟨some handle.index, some d⟩)
      (table : h.weakTable? d = some t) (holds : t.Holds handle.index handle.serial v)
      (room : handle.index ≤ LightWord.maxIndex) : Found r d h ⟨v, .weak handle⟩

/-- **A sight is in order**: the object is found as what is shown, and fits into words. -/
structure Clear (r : Registry) (d : Nat) (h : Host) (s : Sight) : Prop where
  registered : (r.get? s.view.type).isSome = true
  packable : r.Packable s.view
  found : s.Found r d h

/-! ### What casts come to -/

theorem cast_of_isBaseOf (hbase : r.isBaseOf target s.view.type = true) :
    s.cast r d h target = .ok (s, h) := by
  rw [cast, if_pos hbase]

section Down

variable {a : Address} (hother : r.isBaseOf target s.view.type = false)

include hother

theorem cast_invalid (hdown : r.toDerived? h.memory s.view target = none) :
    s.cast r d h target = .error (.invalidCast (r.nameOf s.view.type) (r.nameOf target)) := by
  simp only [cast, hother, Bool.false_eq_true, if_false, hdown]

theorem cast_strong (hdown : r.toDerived? h.memory s.view target = some a)
    (hweak : r.isWeak target = false) :
    s.cast r d h target = .ok (⟨⟨a, target⟩, .pointer a⟩, h) := by
  simp only [cast, hother, Bool.false_eq_true, if_false, hdown, hweak]

theorem cast_weak (hdown : r.toDerived? h.memory s.view target = some a) (hweak : r.isWeak target = true)
    {handle : Handle} (hgiven : h.weakHandle? r d ⟨a, target⟩ = some (handle, h')) :
    s.cast r d h target = .ok (⟨⟨a, target⟩, .weak handle⟩, h') := by
  simp only [cast, hother, Bool.false_eq_true, if_false, hdown, hweak, if_true, hgiven]

/-- What an object is cast down to is another type, registered, and derived from the type shown. -/
theorem derived_of_toDerived? (hr : r.Sound) {m : Memory}
    (hdown : r.toDerived? m s.view target = some a) :
    s.view.type ≠ target ∧ r.isBaseOf s.view.type target = true ∧ (r.get? target).isSome = true := by
  obtain ⟨offset, hline, -⟩ := hr.toDerived?_eq_some hdown
  have hbase : r.isBaseOf s.view.type target = true := Registry.isBaseOf_iff.2 ⟨offset, hline⟩
  have hne : s.view.type ≠ target := by
    intro heq
    rw [heq, hr.isBaseOf_refl] at hother
    exact absurd hother (by simp)
  obtain ⟨e, he⟩ := Registry.exists_of_isBaseOf hr hbase hne
  exact ⟨hne, hbase, by rw [he]; rfl⟩

end Down

/-- The number of the slot of a weak object fits into a word. -/
theorem Found.index_le {v : View} {handle : Handle} (hs : Found r d h ⟨v, .weak handle⟩) :
    handle.index ≤ LightWord.maxIndex := by
  cases hs with
  | weak _ _ _ _ _ room => exact room

/-- **An object that is found is given a handle** when it is cast down to a weak type, and found by the
handle as that type. -/
theorem Found.down (hr : r.Sound) (hs : s.Found r d h) {a : Address}
    (hother : r.isBaseOf target s.view.type = false)
    (hdown : r.toDerived? h.memory s.view target = some a) (hweak : r.isWeak target = true) :
    ∃ handle h', h.weakHandle? r d ⟨a, target⟩ = some (handle, h') ∧
      Found r d h' ⟨⟨a, target⟩, .weak handle⟩ := by
  have hroot := hr.root_toDerived hdown
  obtain ⟨n, -, hcell⟩ := hr.exists_anchorCell? (v := ⟨a, target⟩) hweak
  rw [Host.weakHandle?_of_anchorCell? hcell]
  cases hs with
  | @pointer v t strong unattached table sound room =>
    obtain ⟨h', hacquire, htable, hanchor⟩ := Host.acquire_unattached (r := r) (v := ⟨a, target⟩) table
      fun i ↦ unattached hroot hcell
    exact ⟨_, h', congrArg some hacquire, .weak hweak hcell hanchor htable
      (sound.holds_allocate.2 (Or.inl ⟨rfl, rfl, rfl⟩)) room⟩
  | @weak v handle t c weak cell anchor table holds room =>
    obtain ⟨hne, hbase, hregistered⟩ := derived_of_toDerived? hother hr hdown
    obtain ⟨offset, hline⟩ := Registry.isBaseOf_iff.1 hbase
    have hsame := hr.anchorCell?_eq (v := ⟨a, target⟩) hline hroot.symm hregistered cell
    obtain rfl := Option.some.inj (hcell.symm.trans hsame)
    obtain ⟨h', hacquire, htable, hanchor⟩ := Host.acquire_upgrade (v := ⟨a, target⟩) table anchor holds
      hne hbase
    exact ⟨_, h', congrArg some hacquire, .weak hweak hcell hanchor htable
      ((WeakTable.holds_upgrade holds).2 (Or.inl ⟨rfl, rfl, rfl⟩)) room⟩

/-- **A cast leaves a sight in order.** -/
theorem Clear.cast (hr : r.Sound) (hs : s.Clear r d h) (hc : s.cast r d h target = .ok (s', h')) :
    s'.Clear r d h' := by
  by_cases hbase : r.isBaseOf target s.view.type = true
  · rw [cast_of_isBaseOf hbase] at hc
    obtain ⟨rfl, rfl⟩ := Prod.mk.inj (Except.ok.inj hc)
    exact hs
  have hother := Bool.eq_false_iff.2 hbase
  cases hdown : r.toDerived? h.memory s.view target with
  | none =>
    rw [cast_invalid hother hdown] at hc
    exact absurd hc (by simp)
  | some a =>
    obtain ⟨-, hderived, hregistered⟩ := derived_of_toDerived? hother hr hdown
    have hpackable := hs.packable.toDerived hr hdown
    cases hweak : r.isWeak target with
    | true =>
      obtain ⟨handle, h₁, hgiven, hfound⟩ := hs.found.down hr hother hdown hweak
      rw [cast_weak hother hdown hweak hgiven] at hc
      obtain ⟨rfl, rfl⟩ := Prod.mk.inj (Except.ok.inj hc)
      exact ⟨hregistered, hpackable, hfound⟩
    | false =>
      rw [cast_strong hother hdown hweak] at hc
      obtain ⟨rfl, rfl⟩ := Prod.mk.inj (Except.ok.inj hc)
      refine ⟨hregistered, hpackable, ?_⟩
      have hroot := hr.root_toDerived hdown
      have hfound := hs.found
      cases hfound with
      | @pointer v t strong unattached table sound room =>
        exact .pointer hweak (fun hu ↦ unattached (hu.trans hroot)) table sound room
      | @weak v handle t c weak cell anchor table holds room =>
        rw [hr.isWeak_of_isBaseOf hderived weak] at hweak
        exact absurd hweak (by simp)

end Sight

end ObjectBridge
