import ObjectBridge.Proofs.Growth
import ObjectBridge.Proofs.Handles
import ObjectBridge.Proofs.Registration

/-!
# Packed words decode

`Registry.Packing` says that packing loses nothing: a word leads back to the address and the type it
was made of, or to whatever the table of weak objects finds for the handle it was made of, and
different things are packed into different words. It holds of every registry that a registration
leads to (`Registry.packing_ofPlan`).

For handles this is about the table in the course of time. A word keeps 32 bits of the serial and
tells the family of the object, not its type. Nothing is lost with the bits as long as no more
serials have been handed out (`WeakTable.Sound.resolveNarrow_eq`); and an object found under the
serial is of the same family as the object that the handle was made for, since a slot that keeps
its serial only comes to hold a more derived view (`WeakTable.Climbs`). `WeakTable.Step` is one use
of the table by the host, for whatever objects.
-/

namespace ObjectBridge

/-! ### Families -/

namespace Registry

variable {r : Registry}

/-- The family of a weak type. -/
def family? (r : Registry) (id : Nat) : Option Nat :=
  (r.get? id).bind (·.weakRoot)

theorem isWeak_of_family? {id root : Nat} (h : r.family? id = some root) : r.isWeak id = true := by
  obtain ⟨d, hd, hroot⟩ := Option.bind_eq_some_iff.1 h
  rw [isWeak_eq hd, Descriptor.isWeak, hroot]
  rfl

/-- **Types derived from a weak type are of its family.** -/
theorem Sound.family?_eq (hs : r.Sound) {base derived root : Nat}
    (hbase : r.isBaseOf base derived = true) (hroot : r.family? base = some root) :
    r.family? derived = some root := by
  obtain ⟨offset, hline⟩ := isBaseOf_iff.1 hbase
  obtain ⟨b, hb, hroot'⟩ := Option.bind_eq_some_iff.1 hroot
  cases hd : r.get? derived with
  | some d => exact Option.bind_eq_some_iff.2 ⟨d, hd, hs.weakRoot_eq hline hd hb hroot'⟩
  | none =>
    -- the line of a number that is no type is that number alone
    obtain ⟨rfl, -⟩ : base = derived ∧ offset = 0 := by
      rw [hs.views_eq, hd] at hline
      simpa using hline
    exact hroot

end Registry

/-! ### The table in the course of time -/

namespace WeakTable

variable {r : Registry} {t t' : WeakTable} {h : Handle}

/-- One use of a table: an object that is seen as `v` and owns `slot`, or no slot, is given a handle,
or a slot is given back. -/
inductive Step (r : Registry) (t : WeakTable) : WeakTable → Prop
  | acquire (slot : Option Nat) (v : View) : Step r t (Host.weakAcquire r t slot v).2
  | release (k : Nat) : Step r t (t.release k)

/-- The uses of a table in the course of time. -/
def Run (r : Registry) : WeakTable → WeakTable → Prop :=
  Relation.ReflTransGen (Step r)

theorem sound_weakAcquire (ht : t.Sound) (slot : Option Nat) (v : View) :
    (Host.weakAcquire r t slot v).2.Sound := by
  have hacquires := Host.acquires_weakAcquire r t slot v
  generalize Host.weakAcquire r t slot v = result at hacquires ⊢
  cases hacquires with
  | upgraded _ holds _ _ => exact ht.upgrade holds v
  | kept => exact ht
  | allocated => exact ht.allocate v

/-- **An object is given a handle that leads to it**: to the view that it is seen as, or to the view
that its slot holds. -/
theorem resolve_weakAcquire (ht : t.Sound) (slot : Option Nat) (v : View) :
    ∃ u, (Host.weakAcquire r t slot v).2.resolve (Host.weakAcquire r t slot v).1 = some u ∧
      (u = v ∨ slot.bind t.view? = some u) := by
  have hacquires := Host.acquires_weakAcquire r t slot v
  generalize Host.weakAcquire r t slot v = result at hacquires ⊢
  cases hacquires with
  | upgraded _ holds _ _ =>
    exact ⟨v, (resolve_eq_some_iff _).2 ((holds_upgrade holds).2 (Or.inl ⟨rfl, rfl, rfl⟩)), Or.inl rfl⟩
  | @kept handle u owned holds _ =>
    refine ⟨u, t.resolve_eq_some_iff.2 holds, Or.inr ?_⟩
    rw [owned, Option.bind_some]
    exact t.view?_eq_some_iff.2 ⟨_, holds⟩
  | allocated =>
    exact ⟨v, (resolve_eq_some_iff _).2 (ht.holds_allocate.2 (Or.inl ⟨rfl, rfl, rfl⟩)), Or.inl rfl⟩

theorem Step.sound (hstep : Step r t t') (ht : t.Sound) : t'.Sound := by
  cases hstep with
  | acquire slot v => exact sound_weakAcquire ht slot v
  | release k => exact ht.release k

theorem Step.climbs (hstep : Step r t t') (hs : r.Sound) (ht : t.Sound) : Climbs r t t' := by
  cases hstep with
  | acquire slot v => exact (Host.climbs_weakAcquire hs ht slot v).1
  | release k => exact climbs_release hs k

/-- **Along every use of a table slots come to hold more derived views only.** -/
theorem Run.climbs (hrun : Run r t t') (hs : r.Sound) (ht : t.Sound) : t'.Sound ∧ Climbs r t t' := by
  induction hrun with
  | refl => exact ⟨ht, .refl hs t⟩
  | tail _ hstep ih =>
    obtain ⟨hsound, hclimbs⟩ := ih
    exact ⟨hstep.sound hsound, hclimbs.trans hs (hstep.climbs hs hsound)⟩

/-- What a slot holds under a serial, it has held under it. -/
theorem Climbs.follows (hc : Climbs r t t') : Follows (fun _ ↦ ()) t t' := by
  refine ⟨hc.nextSerial_le, fun {i n v'} hh hn ↦ ?_⟩
  obtain ⟨v, hv, -⟩ := hc.holds hh hn
  exact ⟨v, hv, rfl⟩

/-- A handle leads to objects of one family, as long as it leads to any. -/
theorem Climbs.family? (hc : Climbs r t t') (hs : r.Sound) (ht : t.Sound) {u u' : View} {root : Nat}
    (hu : t.resolve h = some u) (hroot : r.family? u.type = some root) (hu' : t'.resolve h = some u') :
    r.family? u'.type = some root := by
  have hholds := t.resolve_eq_some_iff.1 hu
  obtain ⟨v, hv, hbase⟩ := hc.holds (t'.resolve_eq_some_iff.1 hu') (ht.lt_of_holds hholds)
  obtain ⟨-, rfl⟩ := hv.unique hholds
  exact hs.family?_eq hbase hroot

/-- **The last 32 bits of a serial tell the serial** as long as no more serials are handed out. -/
theorem Sound.resolveNarrow_eq (ht : t.Sound) (hbound : t.nextSerial ≤ serialBound)
    (hlt : h.serial < t.nextSerial) :
    t.resolveNarrow h.index (h.serial % serialBound) = t.resolve h := by
  rw [resolveNarrow, resolve]
  cases hslot : t.slots[h.index]? with
  | none => rfl
  | some s =>
    have hserial := ht.serial_lt hslot
    dsimp only
    rw [Nat.mod_eq_of_lt (Nat.lt_of_lt_of_le hserial hbound),
      Nat.mod_eq_of_lt (Nat.lt_of_lt_of_le hlt hbound)]

end WeakTable

/-! ### Words -/

namespace Registry

variable {r : Registry} {t : WeakTable} {v v' : View} {h h' : Handle} {id id' root : Nat} {w : UInt64}

/-- Addresses are packed if their type has a slot and their top byte is free. -/
theorem packPointer?_eq_none_iff :
    r.packPointer? v = none ↔ r.slotOf? v.type = none ∨ 2 ^ 56 ≤ v.address.toNat := by
  have htop : LightWord.slot v.address = 0 ↔ ¬ 2 ^ 56 ≤ v.address.toNat := by
    rw [LightWord.slot_eq]
    omega
  rw [packPointer?]
  cases r.slotOf? v.type with
  | none => simp
  | some slot => simp [htop]

/-- Handles are packed if the type has a slot and the index fits. -/
theorem packWeak?_eq_none_iff :
    r.packWeak? h id = none ↔ LightWord.maxIndex < h.index ∨ r.slotOf? id = none := by
  rw [packWeak?]
  split
  · simp [*]
  · cases r.slotOf? id <;> simp [*]

/-- **The word of a handle leads where the handle leads**, if that is to objects of the family that
the handle was packed for. -/
theorem Sound.resolveWord?_eq_resolve (hs : r.Sound) (hw : r.packWeak? h id = some w)
    (hid : r.family? id = some root) (ht : t.Sound) (hbound : t.nextSerial ≤ serialBound)
    (hlt : h.serial < t.nextSerial) (hroot : ∀ u, t.resolve h = some u → r.family? u.type = some root) :
    r.resolveWord? t w = t.resolve h := by
  obtain ⟨⟨root', hroot', hslot⟩, hindex, hserial⟩ := hs.fields_packWeak hw (isWeak_of_family? hid)
  obtain rfl : root' = root := Option.some.inj (hroot'.symm.trans hid)
  rw [resolveWord?, hslot, hindex, hserial]
  dsimp only
  rw [ht.resolveNarrow_eq hbound hlt]
  cases hu : t.resolve h with
  | none => rfl
  | some u => exact if_pos (hroot u hu)

/-- **Packing loses nothing.** -/
structure Packing (r : Registry) : Prop where
  pointer_none (v : View) :
    r.packPointer? v = none ↔ r.slotOf? v.type = none ∨ 2 ^ 56 ≤ v.address.toNat
  /-- The address of an object that is not weak, and the type, can be read off the word. -/
  pointer_decodes {v : View} : r.isWeak v.type = false → r.slotOf? v.type ≠ none → v.address ≠ 0 →
    v.address.toNat < 2 ^ 56 → ∃ w, r.packPointer? v = some w ∧ ∀ t, r.resolveWord? t w = some v
  weak_none (h : Handle) (id : Nat) :
    r.packWeak? h id = none ↔ LightWord.maxIndex < h.index ∨ r.slotOf? id = none
  /-- An object that is seen as `v`, and owns `slot` or no slot, is given a handle that leads to it. -/
  weak_handle {t : WeakTable} (slot : Option Nat) (v : View) : WeakTable.Run r {} t →
    ∃ u, (Host.weakAcquire r t slot v).2.resolve (Host.weakAcquire r t slot v).1 = some u ∧
      (u = v ∨ slot.bind t.view? = some u)
  /-- A handle that leads to an object of a family is packed for any type of the family. From then on
  the word leads where the handle leads, and when the handle has come to lead nowhere, the word leads
  nowhere for good. -/
  weak_decodes {t₁ : WeakTable} {h : Handle} {u : View} {id root : Nat} : WeakTable.Run r {} t₁ →
    t₁.resolve h = some u → r.family? u.type = some root → r.family? id = some root →
    r.slotOf? id ≠ none → h.index ≤ LightWord.maxIndex → ∃ w, r.packWeak? h id = some w ∧
      ∀ {t₂}, WeakTable.Run r t₁ t₂ → t₂.nextSerial ≤ serialBound →
        r.resolveWord? t₂ w = t₂.resolve h ∧
        (t₂.resolve h = none → ∀ {t₃}, WeakTable.Run r t₂ t₃ → t₃.nextSerial ≤ serialBound →
          r.resolveWord? t₃ w = none)
  pointer_inj {v v' : View} {w : UInt64} : r.isWeak v.type = false → r.isWeak v'.type = false →
    r.packPointer? v = some w → r.packPointer? v' = some w → v = v'
  weak_inj {h h' : Handle} {id id' : Nat} {w : UInt64} : r.isWeak id = true → r.isWeak id' = true →
    h.serial < serialBound → h'.serial < serialBound → r.packWeak? h id = some w →
    r.packWeak? h' id' = some w → r.family? id = r.family? id' ∧ h = h'
  pointer_ne_weak {v : View} {h : Handle} {id : Nat} {w : UInt64} : r.isWeak v.type = false →
    r.isWeak id = true → r.packPointer? v = some w → r.packWeak? h id ≠ some w

/-! ### Injectivity -/

theorem Sound.packPointer?_inj (hs : r.Sound) (hv : r.isWeak v.type = false)
    (hv' : r.isWeak v'.type = false) (hw : r.packPointer? v = some w)
    (hw' : r.packPointer? v' = some w) : v = v' := by
  obtain ⟨hslot, hpayload⟩ := hs.fields_packPointer hw hv
  obtain ⟨hslot', hpayload'⟩ := hs.fields_packPointer hw' hv'
  have htype := LightSlot.declared.inj (Option.some.inj (hslot.symm.trans hslot'))
  calc v = ⟨v.address, v.type⟩ := rfl
    _ = ⟨v'.address, v'.type⟩ := by rw [← hpayload, ← hpayload', htype]

theorem Sound.packWeak?_inj (hs : r.Sound) (hid : r.isWeak id = true) (hid' : r.isWeak id' = true)
    (hserial : h.serial < serialBound) (hserial' : h'.serial < serialBound)
    (hw : r.packWeak? h id = some w) (hw' : r.packWeak? h' id' = some w) :
    r.family? id = r.family? id' ∧ h = h' := by
  obtain ⟨⟨root, hroot, hslot⟩, hi, hn⟩ := hs.fields_packWeak hw hid
  obtain ⟨⟨root', hroot', hslot'⟩, hi', hn'⟩ := hs.fields_packWeak hw' hid'
  have hfamily := LightSlot.weakFamily.inj (Option.some.inj (hslot.symm.trans hslot'))
  rw [Nat.mod_eq_of_lt hserial] at hn
  rw [Nat.mod_eq_of_lt hserial'] at hn'
  refine ⟨hroot.trans (hfamily ▸ hroot'.symm), ?_⟩
  calc h = ⟨h.index, h.serial⟩ := rfl
    _ = ⟨h'.index, h'.serial⟩ := by rw [← hi, ← hn, hi', hn']

theorem Sound.packPointer?_ne_packWeak? (hs : r.Sound) (hv : r.isWeak v.type = false)
    (hid : r.isWeak id = true) (hw : r.packPointer? v = some w) : r.packWeak? h id ≠ some w := by
  intro hw'
  obtain ⟨hslot, -⟩ := hs.fields_packPointer hw hv
  obtain ⟨⟨root, -, hslot'⟩, -⟩ := hs.fields_packWeak hw' hid
  exact absurd (Option.some.inj (hslot.symm.trans hslot')) (by simp)

theorem Sound.packing (hs : r.Sound) : r.Packing where
  pointer_none _ := packPointer?_eq_none_iff
  pointer_decodes {v} hv hslot hne hlt := by
    have hsome : r.packPointer? v ≠ none := by
      rw [Ne, packPointer?_eq_none_iff]
      exact not_or.2 ⟨hslot, by omega⟩
    obtain ⟨w, hw⟩ := Option.ne_none_iff_exists'.1 hsome
    exact ⟨w, hw, hs.resolveWord?_packPointer hw hv hne⟩
  weak_none _ _ := packWeak?_eq_none_iff
  weak_handle slot v hrun :=
    WeakTable.resolve_weakAcquire (hrun.climbs hs WeakTable.sound_empty).1 slot v
  weak_decodes {t₁ h u id root} hrun hu hroot hid hslot hindex := by
    have hsome : r.packWeak? h id ≠ none := by
      rw [Ne, packWeak?_eq_none_iff]
      exact not_or.2 ⟨by omega, hslot⟩
    obtain ⟨w, hw⟩ := Option.ne_none_iff_exists'.1 hsome
    have ht₁ := (hrun.climbs hs WeakTable.sound_empty).1
    have hdecodes : ∀ {t}, WeakTable.Run r t₁ t → t.nextSerial ≤ serialBound →
        r.resolveWord? t w = t.resolve h := fun hlater hbound ↦ by
      obtain ⟨ht, hclimbs⟩ := hlater.climbs hs ht₁
      have hlt := Nat.lt_of_lt_of_le (ht₁.lt_of_holds (t₁.resolve_eq_some_iff.1 hu))
        hclimbs.nextSerial_le
      exact hs.resolveWord?_eq_resolve hw hid ht hbound hlt
        fun u' hu' ↦ hclimbs.family? hs ht₁ hu hroot hu'
    refine ⟨w, hw, fun {t₂} hrun₂ hbound₂ ↦ ⟨hdecodes hrun₂ hbound₂, fun hnone t₃ hrun₃ hbound₃ ↦ ?_⟩⟩
    obtain ⟨ht₂, hclimbs₂⟩ := hrun₂.climbs hs ht₁
    have hlt := Nat.lt_of_lt_of_le (ht₁.lt_of_holds (t₁.resolve_eq_some_iff.1 hu))
      hclimbs₂.nextSerial_le
    rw [hdecodes (hrun₂.trans hrun₃) hbound₃]
    exact (hrun₃.climbs hs ht₂).2.follows.resolve_eq_none hlt hnone
  pointer_inj hv hv' := hs.packPointer?_inj hv hv'
  weak_inj := hs.packWeak?_inj
  pointer_ne_weak hv hid := hs.packPointer?_ne_packWeak? hv hid

/-- **Packed words decode to what was packed**, in every registry that a registration leads to. -/
theorem packing_ofPlan (c : Catalogue) (plan : List PlanStep) : (Registry.ofPlan c plan).Packing :=
  (sound_ofPlan c plan).packing

/-- A weak type and one that is not. -/
def stage : Catalogue where
  types := #[{ name := "Puppet", size := 16, anchor := some 0 }, { name := "Curtain" }]
  bases_first := by decide

/-- A curtain is found again. So is a puppet, until its slot is given back; then the word of the puppet
leads nowhere, also after another puppet has taken the slot. -/
theorem packing_ofPlan_stage :
    (∃ w, (Registry.ofPlan stage [.fill [0, 1]]).packPointer? ⟨0x1000, 1⟩ = some w ∧
      ∀ t, (Registry.ofPlan stage [.fill [0, 1]]).resolveWord? t w = some ⟨0x1000, 1⟩) ∧
    ∃ w, (Registry.ofPlan stage [.fill [0, 1]]).packWeak? ⟨0, 1⟩ 0 = some w ∧
      (Registry.ofPlan stage [.fill [0, 1]]).resolveWord?
        (({} : WeakTable).allocate ⟨0x2000, 0⟩) w = some ⟨0x2000, 0⟩ ∧
      (Registry.ofPlan stage [.fill [0, 1]]).resolveWord?
        (((({} : WeakTable).allocate ⟨0x2000, 0⟩).release 0).allocate ⟨0x3000, 0⟩) w = none := by
  set r := Registry.ofPlan stage [.fill [0, 1]] with hr
  have hpacking : r.Packing := packing_ofPlan stage _
  have hfacts : (r.isWeak 1 = false ∧ r.slotOf? 1 ≠ none) ∧
      r.family? 0 = some 0 ∧ r.slotOf? 0 ≠ none := by
    rw [hr]
    decide +kernel
  obtain ⟨⟨hstrong, hslot⟩, hfamily, hslot'⟩ := hfacts
  refine ⟨hpacking.pointer_decodes hstrong hslot (by decide) (by decide), ?_⟩
  have hshown : WeakTable.Run r {} (({} : WeakTable).allocate ⟨0x2000, 0⟩) :=
    .single (.acquire none ⟨0x2000, 0⟩)
  obtain ⟨w, hw, hdecodes⟩ := hpacking.weak_decodes (h := ⟨0, 1⟩) hshown rfl hfamily hfamily hslot'
    (by decide)
  have hgone := hdecodes (.single (.release 0)) (by decide)
  refine ⟨w, hw, (hdecodes .refl (by decide)).1, hgone.2 (by decide) ?_ (by decide)⟩
  exact .single (.acquire none ⟨0x3000, 0⟩)

end Registry

end ObjectBridge
