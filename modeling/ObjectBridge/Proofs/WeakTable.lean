import Mathlib.Data.List.Nodup
import ObjectBridge.WeakTable

/-!
# Handles of weak objects

`WeakTable.Holds t i n v` says that slot `i` is occupied, under the serial `n`, by the object seen
as `v`; a handle resolves exactly when the table holds its index and serial. The three operations
are described by what the table holds after them, given that the table is sound: that its free list
names the unoccupied slots and that every serial lies below the next one.

`WeakTable.Follows` compares two tables of a history. What the later one holds under an old serial
the earlier one held already, for a view with the same `key`: a serial is never used twice, and a view
gives way only to a view of the same object.
-/

namespace ObjectBridge

namespace WeakTable

variable (t : WeakTable)

/-- Slot `i` is occupied, under the serial `n`, by the object seen as `v`. -/
def Holds (i n : Nat) (v : View) : Prop :=
  t.slots[i]? = some ⟨some v, n⟩

theorem resolve_eq_some_iff {h : Handle} {v : View} :
    t.resolve h = some v ↔ t.Holds h.index h.serial v := by
  rw [resolve, Holds]
  cases hs : t.slots[h.index]? with
  | none => simp
  | some s =>
    obtain ⟨view, serial⟩ := s
    by_cases hn : serial = h.serial <;> simp [hn]

theorem view?_eq_some_iff {i : Nat} {v : View} : t.view? i = some v ↔ ∃ n, t.Holds i n v := by
  rw [view?, Option.bind_eq_some_iff]
  constructor
  · rintro ⟨⟨_, n⟩, h, rfl⟩
    exact ⟨n, h⟩
  · rintro ⟨n, h⟩
    exact ⟨_, h, rfl⟩

theorem current_eq_some_iff {i : Nat} {h : Handle} :
    t.current i = some h ↔ h.index = i ∧ ∃ v, t.Holds i h.serial v := by
  simp only [current, Holds]
  cases hs : t.slots[i]? with
  | none => simp
  | some s =>
    obtain ⟨view, serial⟩ := s
    obtain ⟨index, n⟩ := h
    cases view <;> simp [eq_comm]

variable {t}

theorem Holds.unique {i n n' : Nat} {v v' : View} (h : t.Holds i n v) (h' : t.Holds i n' v') :
    n = n' ∧ v = v' := by
  simp only [Holds] at h h'
  simp_all

/-- The free list names the unoccupied slots, and every serial lies below the next one. -/
structure Sound (t : WeakTable) : Prop where
  nodup_free : t.free.Nodup
  mem_free_iff : ∀ i, i ∈ t.free ↔ ∃ n, t.slots[i]? = some ⟨none, n⟩
  serial_lt : ∀ {i : Nat} {s : WeakSlot}, t.slots[i]? = some s → s.serial < t.nextSerial
  pos : 0 < t.nextSerial

theorem sound_empty : (({} : WeakTable)).Sound where
  nodup_free := List.nodup_nil
  mem_free_iff i := by simp
  serial_lt h := by simp at h
  pos := Nat.one_pos

theorem Sound.lt_of_holds (hs : t.Sound) {i n : Nat} {v : View} (h : t.Holds i n v) :
    n < t.nextSerial :=
  hs.serial_lt h

/-! ### Allocation -/

theorem slots_allocate (hs : t.Sound) (w : View) (i : Nat) :
    (t.allocate w).slots[i]? =
      if i = t.nextIndex then some ⟨some w, t.nextSerial⟩ else t.slots[i]? := by
  rw [allocate, nextIndex]
  cases hf : t.free with
  | nil => rw [List.headD_nil, Array.getElem?_push]
  | cons k rest =>
    obtain ⟨n, hk⟩ := (hs.mem_free_iff k).1 (hf ▸ List.mem_cons_self)
    rw [List.headD_cons, Array.getElem?_setIfInBounds]
    by_cases hi : k = i
    · subst hi
      simp [(Array.getElem?_eq_some_iff.1 hk).1]
    · have hi' : i ≠ k := fun e ↦ hi e.symm
      simp [hi, hi']

@[simp]
theorem nextSerial_allocate (w : View) : (t.allocate w).nextSerial = t.nextSerial + 1 := by
  rw [allocate]
  cases t.free <;> rfl

/-- The slot that the next object gets is not occupied. -/
theorem Sound.not_holds_nextIndex (hs : t.Sound) {n : Nat} {v : View} :
    ¬ t.Holds t.nextIndex n v := by
  intro h
  rw [nextIndex] at h
  cases hf : t.free with
  | nil => simp [hf, Holds] at h
  | cons k rest =>
    obtain ⟨m, hk⟩ := (hs.mem_free_iff k).1 (hf ▸ List.mem_cons_self)
    rw [hf, List.headD_cons, Holds, hk] at h
    simp at h

/-- **An allocation occupies one more slot, under a serial of its own.** -/
theorem Sound.holds_allocate (hs : t.Sound) {w v : View} {i n : Nat} :
    (t.allocate w).Holds i n v ↔
      (i = t.nextIndex ∧ n = t.nextSerial ∧ v = w) ∨ t.Holds i n v := by
  rw [Holds, slots_allocate hs]
  by_cases hi : i = t.nextIndex
  · subst hi
    have hno : ¬ t.Holds t.nextIndex n v := hs.not_holds_nextIndex
    simp [hno, eq_comm, and_comm]
  · simp [hi, Holds]

theorem Sound.allocate (hs : t.Sound) (w : View) : (t.allocate w).Sound := by
  have hslots := slots_allocate hs w
  refine ⟨?_, fun i ↦ ?_, fun {i s} h ↦ ?_, by simp⟩
  · rw [WeakTable.allocate]
    have hn := hs.nodup_free
    cases hf : t.free with
    | nil => exact List.nodup_nil
    | cons k rest => exact (List.nodup_cons.1 (hf ▸ hn)).2
  · rw [hslots]
    have hold := hs.mem_free_iff i
    have hn := hs.nodup_free
    rw [WeakTable.allocate, nextIndex]
    cases hf : t.free with
    | nil =>
      rw [hf] at hold
      by_cases hi : i = t.slots.size <;> simp [hi, ← hold]
    | cons k rest =>
      rw [hf] at hold hn
      rw [List.nodup_cons] at hn
      by_cases hi : i = k
      · subst hi
        simp [hn.1]
      · simp [hi, ← hold]
  · rw [hslots] at h
    rw [nextSerial_allocate]
    split at h
    · obtain rfl := Option.some.inj h
      exact Nat.lt_succ_self _
    · exact Nat.lt_succ_of_lt (hs.serial_lt h)

/-! ### Release -/

/-- **A release empties one slot.** -/
theorem holds_release {k i n : Nat} {v : View} :
    (t.release k).Holds i n v ↔ i ≠ k ∧ t.Holds i n v := by
  rw [release]
  cases hk : t.view? k with
  | none =>
    refine ⟨fun h ↦ ⟨?_, h⟩, And.right⟩
    rintro rfl
    rw [t.view?_eq_some_iff.2 ⟨n, h⟩] at hk
    exact absurd hk (by simp)
  | some w =>
    simp only [Holds, Array.getElem?_setIfInBounds]
    by_cases hi : k = i
    · subst hi
      by_cases hlt : k < t.slots.size <;> simp [hlt]
    · have hi' : i ≠ k := fun e ↦ hi e.symm
      simp [hi, hi']

@[simp]
theorem nextSerial_release (k : Nat) : (t.release k).nextSerial = t.nextSerial := by
  rw [release]
  cases t.view? k <;> rfl

theorem Sound.release (hs : t.Sound) (k : Nat) : (t.release k).Sound := by
  rw [WeakTable.release]
  cases hk : t.view? k with
  | none => exact hs
  | some w =>
    obtain ⟨n, hn⟩ := t.view?_eq_some_iff.1 hk
    have hlt : k < t.slots.size := (Array.getElem?_eq_some_iff.1 hn).1
    have hnot : k ∉ t.free := fun h ↦ by
      obtain ⟨m, hm⟩ := (hs.mem_free_iff k).1 h
      rw [Holds, hm] at hn
      simp at hn
    refine ⟨List.nodup_cons.2 ⟨hnot, hs.nodup_free⟩, fun i ↦ ?_, fun {i s} h ↦ ?_, hs.pos⟩
    · simp only [List.mem_cons, Array.getElem?_setIfInBounds, hs.mem_free_iff]
      by_cases hi : k = i
      · subst hi
        simp only [true_or, if_true, hlt, true_iff]
        exact ⟨0, rfl⟩
      · have hi' : i ≠ k := fun e ↦ hi e.symm
        simp [hi, hi']
    · simp only [Array.getElem?_setIfInBounds] at h
      split at h
      · obtain rfl := Option.some.inj h
        exact hs.pos
      · exact hs.serial_lt h

/-! ### Another view -/

/-- **An upgrade changes the view in one slot and keeps its serial.** -/
theorem holds_upgrade {k m : Nat} {u : View} (hk : t.Holds k m u) {w v : View} {i n : Nat} :
    (t.upgrade k w).Holds i n v ↔ (i = k ∧ n = m ∧ v = w) ∨ (i ≠ k ∧ t.Holds i n v) := by
  simp only [Holds] at hk
  simp only [upgrade, Holds, Array.getElem?_modify]
  by_cases hi : k = i
  · subst hi
    simp [hk, eq_comm, and_comm]
  · have hi' : i ≠ k := fun e ↦ hi e.symm
    simp [hi, hi']

theorem Sound.upgrade (hs : t.Sound) {k m : Nat} {u : View} (hk : t.Holds k m u) (w : View) :
    (t.upgrade k w).Sound := by
  simp only [Holds] at hk
  refine ⟨hs.nodup_free, fun i ↦ ?_, fun {i s} h ↦ ?_, hs.pos⟩
  · simp only [WeakTable.upgrade, Array.getElem?_modify, hs.mem_free_iff]
    split
    · rename_i hi
      subst hi
      simp [hk]
    · rfl
  · simp only [WeakTable.upgrade, Array.getElem?_modify] at h
    split at h
    · obtain ⟨old, hold, rfl⟩ := Option.map_eq_some_iff.1 h
      have hlt := hs.serial_lt hold
      exact hlt
    · exact hs.serial_lt h

/-! ### Histories -/

/-- What the later of two tables holds under a serial of the earlier one, the earlier one held
already, for a view with the same key. -/
structure Follows {β : Type} (key : View → β) (t t' : WeakTable) : Prop where
  nextSerial_le : t.nextSerial ≤ t'.nextSerial
  holds : ∀ {i n v'}, t'.Holds i n v' → n < t.nextSerial → ∃ v, t.Holds i n v ∧ key v = key v'

variable {β : Type} {key : View → β}

theorem Follows.refl (t : WeakTable) : Follows key t t :=
  ⟨Nat.le_refl _, fun {_ _ v} h _ ↦ ⟨v, h, rfl⟩⟩

theorem Follows.trans {t t' t'' : WeakTable} (h : Follows key t t') (h' : Follows key t' t'') :
    Follows key t t'' := by
  refine ⟨Nat.le_trans h.nextSerial_le h'.nextSerial_le, fun {i n v''} hh hn ↦ ?_⟩
  obtain ⟨v', hv', he'⟩ := h'.holds hh (Nat.lt_of_lt_of_le hn h.nextSerial_le)
  obtain ⟨v, hv, he⟩ := h.holds hv' hn
  exact ⟨v, hv, he.trans he'⟩

/-- A handle that no longer resolves never resolves again. -/
theorem Follows.resolve_eq_none {t t' : WeakTable} (hf : Follows key t t') {h : Handle}
    (hlt : h.serial < t.nextSerial) (hn : t.resolve h = none) : t'.resolve h = none := by
  cases hr : t'.resolve h with
  | none => rfl
  | some v =>
    obtain ⟨u, hu, -⟩ := hf.holds (t'.resolve_eq_some_iff.1 hr) hlt
    rw [t.resolve_eq_some_iff.2 hu] at hn
    exact absurd hn (by simp)

theorem Sound.follows_allocate (hs : t.Sound) (w : View) : Follows key t (t.allocate w) := by
  refine ⟨by simp, fun {i n v} h hn ↦ ?_⟩
  rcases hs.holds_allocate.1 h with ⟨-, rfl, -⟩ | h
  · exact absurd hn (Nat.lt_irrefl _)
  · exact ⟨v, h, rfl⟩

theorem follows_release (k : Nat) : Follows key t (t.release k) :=
  ⟨by simp, fun {_ _ v} h _ ↦ ⟨v, (holds_release.1 h).2, rfl⟩⟩

/-- **Tables in which the same slots are occupied** under the same serials, by views with the same key. -/
structure Alike {β : Type} (key : View → β) (t t' : WeakTable) : Prop where
  nextSerial_eq : t'.nextSerial = t.nextSerial
  sound : t.Sound → t'.Sound
  old : ∀ {i n v'}, t'.Holds i n v' → ∃ v, t.Holds i n v ∧ key v = key v'
  kept : ∀ {i n v}, t.Holds i n v → ∃ v', t'.Holds i n v' ∧ key v = key v'

theorem Alike.refl (t : WeakTable) : Alike key t t :=
  ⟨rfl, fun hs ↦ hs, fun {_ _ v} h ↦ ⟨v, h, rfl⟩, fun {_ _ v} h ↦ ⟨v, h, rfl⟩⟩

theorem Alike.follows {t t' : WeakTable} (h : Alike key t t') : Follows key t t' :=
  ⟨Nat.le_of_eq h.nextSerial_eq.symm, fun hh _ ↦ h.old hh⟩

/-- Upgrading a slot to a view with the same key. -/
theorem alike_upgrade {k m : Nat} {u w : View} (hk : t.Holds k m u) (hc : key u = key w) :
    Alike key t (t.upgrade k w) := by
  refine ⟨rfl, fun hs ↦ hs.upgrade hk w, fun {i n v} h ↦ ?_, fun {i n v} h ↦ ?_⟩
  · rcases (holds_upgrade hk).1 h with ⟨rfl, rfl, rfl⟩ | ⟨-, h⟩
    · exact ⟨u, hk, hc⟩
    · exact ⟨v, h, rfl⟩
  · by_cases hi : i = k
    · subst hi
      obtain ⟨rfl, rfl⟩ := h.unique hk
      exact ⟨w, (holds_upgrade hk).2 (Or.inl ⟨rfl, rfl, rfl⟩), hc⟩
    · exact ⟨v, (holds_upgrade hk).2 (Or.inr ⟨hi, h⟩), rfl⟩

end WeakTable

end ObjectBridge
