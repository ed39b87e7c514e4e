import Mathlib.Data.List.Nodup
import ObjectBridge.SlotStore

/-!
# Reading slot storage

What each operation of a `SlotStore` does to what is stored under a number. Changing and erasing
read the way one expects in any store: `get?_modify`, `get?_erase`, `get?_mapValues`. Inserting does
so only when the numbers on the free stack really are free, which is the invariant
`SlotStore.Sound`; it holds of the empty store and every operation keeps it.
-/

universe u

namespace ObjectBridge

/-- Two lists that share the numbers below `n` among them. -/
theorem length_add_length_of_range {is js : List Nat} {n : Nat} (his : is.Nodup) (hjs : js.Nodup)
    (hdisjoint : ∀ i ∈ is, i ∉ js) (hmem : ∀ i, i ∈ is ∨ i ∈ js ↔ i < n) :
    is.length + js.length = n := by
  have hnodup : (is ++ js).Nodup := List.nodup_append'.2 ⟨his, hjs, fun i hi hj ↦ hdisjoint i hi hj⟩
  have hperm : (is ++ js).Perm (List.range n) :=
    (List.perm_ext_iff_of_nodup hnodup List.nodup_range).2 fun i ↦ by
      rw [List.mem_append, List.mem_range, hmem]
  have hlength := hperm.length_eq
  rwa [List.length_append, List.length_range] at hlength

namespace SlotStore

variable {α : Type u} (s : SlotStore α)

/-! ### Reading after a change -/

theorem get?_eq_some_iff {i : Nat} {a : α} : s.get? i = some a ↔ s.slots[i]? = some (some a) := by
  rw [get?, Option.join_eq_some_iff]

theorem live_iff {i : Nat} : s.live i = true ↔ ∃ a, s.get? i = some a :=
  Option.isSome_iff_exists

theorem lt_capacity_of_get? {i : Nat} {a : α} (h : s.get? i = some a) : i < s.capacity := by
  rw [get?_eq_some_iff] at h
  exact (Array.getElem?_eq_some_iff.1 h).1

theorem get?_modify (i j : Nat) (f : α → α) :
    (s.modify i f).get? j = if i = j then (s.get? j).map f else s.get? j := by
  rw [get?, modify, Array.getElem?_modify]
  split
  · rw [get?]; cases s.slots[j]? <;> simp
  · rfl

@[simp]
theorem live_modify (i j : Nat) (f : α → α) : (s.modify i f).live j = s.live j := by
  rw [live, live, get?_modify]
  split <;> simp

theorem get?_mapValues (f : Nat → α → α) (i : Nat) :
    (s.mapValues f).get? i = (s.get? i).map (f i) := by
  rw [get?, mapValues, Array.getElem?_mapIdx, get?]
  cases s.slots[i]? <;> simp

/-- After an erasure the slot is empty, and every other slot reads as before. -/
theorem get?_erase (i j : Nat) : (s.erase i).get? j = if i = j then none else s.get? j := by
  unfold erase
  split
  · rw [get?, Array.getElem?_setIfInBounds]
    split
    · split <;> rfl
    · rfl
  · rename_i hl
    split
    · rename_i hij
      rw [live, Option.isSome_iff_ne_none, not_not] at hl
      exact hij ▸ hl
    · rfl

/-- Inserting empties no slot. -/
theorem live_insert (a : α) {i : Nat} (hi : s.live i = true) : (s.insert a).live i = true := by
  obtain ⟨b, hb⟩ := (live_iff s).1 hi
  have hslot := (get?_eq_some_iff s).1 hb
  rw [live_iff]
  simp only [get?_eq_some_iff, insert]
  split
  · rw [Array.getElem?_setIfInBounds]
    split
    · rename_i k _ _ hk
      subst hk
      exact ⟨a, if_pos (Array.getElem?_eq_some_iff.1 hslot).1⟩
    · exact ⟨b, hslot⟩
  · have hlt := (Array.getElem?_eq_some_iff.1 hslot).1
    rw [Array.getElem?_push_lt hlt, ← Array.getElem?_eq_getElem hlt]
    exact ⟨b, hslot⟩

/-- Erasing a list of numbers empties exactly the slots that it names. -/
theorem get?_foldl_erase (l : List Nat) (j : Nat) :
    (l.foldl erase s).get? j = if j ∈ l then none else s.get? j := by
  induction l generalizing s with
  | nil => simp
  | cons i l ih =>
    rw [List.foldl_cons, ih, get?_erase]
    by_cases hl : j ∈ l
    · simp [hl]
    · by_cases hi : i = j
      · simp [hi]
      · have hne : j ≠ i := fun e ↦ hi e.symm
        simp [hi, hne, hl]

/-! ### Capacity -/

@[simp]
theorem capacity_modify (i : Nat) (f : α → α) : (s.modify i f).capacity = s.capacity := by
  simp [capacity, modify]

@[simp]
theorem capacity_mapValues (f : Nat → α → α) : (s.mapValues f).capacity = s.capacity := by
  simp [capacity, mapValues]

@[simp]
theorem capacity_erase (i : Nat) : (s.erase i).capacity = s.capacity := by
  rw [erase]
  split <;> simp [capacity]

/-! ### The numbers in use -/

theorem mem_ids {i : Nat} : i ∈ s.ids ↔ s.live i = true := by
  rw [ids, List.mem_filter, List.mem_range]
  refine ⟨And.right, fun h ↦ ⟨?_, h⟩⟩
  obtain ⟨a, ha⟩ := s.live_iff.1 h
  exact s.lt_capacity_of_get? ha

theorem nodup_ids : s.ids.Nodup :=
  List.nodup_range.filter _

/-- Erasing what does not satisfy `p` leaves what does. -/
theorem get?_sweep (p : Nat → Bool) (j : Nat) :
    ((s.ids.filter fun i ↦ !p i).foldl erase s).get? j = if p j then s.get? j else none := by
  rw [get?_foldl_erase]
  simp only [List.mem_filter, mem_ids, live]
  cases p j <;> cases s.get? j <;> simp

/-! ### Insertion -/

/-- The numbers on the free stack are empty slots, each listed once. -/
structure Sound (s : SlotStore α) : Prop where
  nodup_free : s.free.Nodup
  empty_of_mem_free : ∀ i ∈ s.free, s.slots[i]? = some none

instance (s : SlotStore α) : Decidable s.Sound :=
  have hfree (i : Nat) : (s.slots[i]?.any Option.isNone = true) ↔ s.slots[i]? = some none := by
    rcases s.slots[i]? with _ | _ | a <;> simp
  decidable_of_iff (s.free.Nodup ∧ ∀ i ∈ s.free, s.slots[i]?.any Option.isNone = true)
    ⟨fun h ↦ ⟨h.1, fun i hi ↦ (hfree i).1 (h.2 i hi)⟩,
      fun h ↦ ⟨h.nodup_free, fun i hi ↦ (hfree i).2 (h.empty_of_mem_free i hi)⟩⟩

theorem sound_empty : (({} : SlotStore α)).Sound where
  nodup_free := List.nodup_nil
  empty_of_mem_free _ hi := absurd hi List.not_mem_nil

variable {s}

/-- The number that the next value gets is not in use. -/
theorem Sound.get?_nextId (hs : s.Sound) : s.get? s.nextId = none := by
  rw [nextId]
  cases hf : s.free with
  | nil => simp [get?]
  | cons i rest =>
    have hi := hs.empty_of_mem_free i (by simp [hf])
    simp [get?, hi]

/-- The inserted value is found under `nextId`, and every other number reads as before. -/
theorem Sound.get?_insert (hs : s.Sound) (a : α) (j : Nat) :
    (s.insert a).get? j = if j = s.nextId then some a else s.get? j := by
  rw [insert, nextId]
  cases hf : s.free with
  | nil =>
    rw [get?, List.headD_nil, Array.getElem?_push]
    split
    · rfl
    · rfl
  | cons i rest =>
    obtain ⟨hi, -⟩ := Array.getElem?_eq_some_iff.1 (hs.empty_of_mem_free i (by simp [hf]))
    rw [get?, List.headD_cons, Array.getElem?_setIfInBounds]
    by_cases hij : i = j
    · subst hij; simp [hi]
    · have hne : j ≠ i := fun e ↦ hij e.symm
      simp [hij, hne, get?]

theorem Sound.insert (hs : s.Sound) (a : α) : (s.insert a).Sound := by
  rw [SlotStore.insert]
  cases hf : s.free with
  | nil => exact ⟨List.nodup_nil, fun i hi ↦ absurd hi List.not_mem_nil⟩
  | cons i rest =>
    have hn := hs.nodup_free
    rw [hf, List.nodup_cons] at hn
    refine ⟨hn.2, fun j hj ↦ ?_⟩
    have hne : i ≠ j := fun e ↦ hn.1 (e ▸ hj)
    rw [Array.getElem?_setIfInBounds_ne hne]
    exact hs.empty_of_mem_free j (by simp [hf, hj])

theorem Sound.modify (hs : s.Sound) (i : Nat) (f : α → α) : (s.modify i f).Sound := by
  refine ⟨hs.nodup_free, fun j hj ↦ ?_⟩
  have h := hs.empty_of_mem_free j hj
  simp only [SlotStore.modify, Array.getElem?_modify, h]
  split <;> rfl

theorem Sound.mapValues (hs : s.Sound) (f : Nat → α → α) : (s.mapValues f).Sound := by
  refine ⟨hs.nodup_free, fun j hj ↦ ?_⟩
  have h := hs.empty_of_mem_free j hj
  simp [SlotStore.mapValues, h]

theorem Sound.erase (hs : s.Sound) (i : Nat) : (s.erase i).Sound := by
  unfold SlotStore.erase
  split
  · rename_i hl
    obtain ⟨a, ha⟩ := s.live_iff.1 hl
    rw [get?_eq_some_iff] at ha
    refine ⟨List.nodup_cons.2 ⟨fun hi ↦ ?_, hs.nodup_free⟩, fun j hj ↦ ?_⟩
    · rw [hs.empty_of_mem_free i hi] at ha
      simp at ha
    · rw [Array.getElem?_setIfInBounds]
      split
      · rename_i hij
        subst hij
        simp [(Array.getElem?_eq_some_iff.1 ha).1]
      · rename_i hij
        rcases List.mem_cons.1 hj with h | h
        · exact absurd h.symm hij
        · exact hs.empty_of_mem_free j h
  · exact hs

theorem Sound.foldl_erase (hs : s.Sound) (l : List Nat) : (l.foldl SlotStore.erase s).Sound := by
  induction l generalizing s with
  | nil => exact hs
  | cons i l ih => exact ih (hs.erase i)

end SlotStore

end ObjectBridge
