import ObjectBridge.Proofs.Collection

/-!
# The insertions of a store

A store is told by its history (`SlotStore.insertions_tell`): a number has the value of the latest
insertion that got it, unless it has been erased since. Any numbers may be erased, in use, free or never
handed out, and any number of times.

What the store keeps besides its values answers for that. The stack of free numbers names exactly the empty
slots, each once, and the count is that of the numbers in use (`SlotStore.Accounted`); so an insertion
never gets a number that is in use. The numbers ever handed out are those below the capacity, and the
collector has a mark for each of them.
-/

universe u

namespace ObjectBridge

variable {α : Type u}

/-! ### Histories -/

/-- A use of a store. -/
inductive StoreUse (α : Type u) where
  | insert (a : α)
  | erase (i : Nat)

namespace StoreUse

/-- What a use makes of a store. -/
def perform (s : SlotStore α) : StoreUse α → SlotStore α
  | insert a => s.insert a
  | erase i => s.erase i

/-- Whether a use erases the number `i`. -/
def erases (i : Nat) : StoreUse α → Bool
  | insert _ => false
  | erase j => j = i

end StoreUse

/-- An insertion of a history. -/
structure Insertion (α : Type u) where
  /-- The number that the value got. -/
  id : Nat
  value : α
  /-- The uses of the store since then. -/
  since : List (StoreUse α)

/-- The value of an insertion, unless its number has been erased since. -/
def Insertion.kept? (n : Insertion α) : Option α :=
  if n.since.any (StoreUse.erases n.id) then none else some n.value

namespace SlotStore

variable {s : SlotStore α}

/-- A store after some uses. -/
def after (s : SlotStore α) (uses : List (StoreUse α)) : SlotStore α :=
  uses.foldl StoreUse.perform s

/-- The insertions among some uses of a store, the earliest first. -/
def insertions (s : SlotStore α) : List (StoreUse α) → List (Insertion α)
  | [] => []
  | .insert a :: uses => ⟨s.nextId, a, uses⟩ :: (s.insert a).insertions uses
  | .erase i :: uses => (s.erase i).insertions uses

/-- The latest insertion that got the number `i`. -/
def latest? (s : SlotStore α) (uses : List (StoreUse α)) (i : Nat) : Option (Insertion α) :=
  ((s.insertions uses).filter (·.id = i)).getLast?

theorem latest?_insert (s : SlotStore α) (a : α) (uses : List (StoreUse α)) (i : Nat) :
    s.latest? (.insert a :: uses) i = ((s.insert a).latest? uses i).or
      (if s.nextId = i then some ⟨s.nextId, a, uses⟩ else none) := by
  rw [latest?, insertions, List.filter_cons]
  split
  · rename_i hi
    rw [if_pos (of_decide_eq_true hi), List.getLast?_cons, latest?]
    cases ((s.insert a).insertions uses |>.filter (·.id = i)).getLast? <;> rfl
  · rename_i hi
    rw [if_neg fun h ↦ hi (decide_eq_true h), Option.or_none, latest?]

theorem latest?_erase (s : SlotStore α) (j : Nat) (uses : List (StoreUse α)) (i : Nat) :
    s.latest? (.erase j :: uses) i = (s.erase j).latest? uses i :=
  rfl

/-- **A number has the value of the latest insertion that got it**, unless it has been erased since. A value
that was there before counts as an insertion before all others. -/
theorem Sound.get?_after (hs : s.Sound) (uses : List (StoreUse α)) (i : Nat) :
    (s.after uses).get? i =
      ((s.latest? uses i).or ((s.get? i).map fun a ↦ ⟨i, a, uses⟩)).bind Insertion.kept? := by
  induction uses generalizing s with
  | nil =>
    show s.get? i = ((s.get? i).map fun a ↦ (⟨i, a, []⟩ : Insertion α)).bind Insertion.kept?
    cases s.get? i <;> rfl
  | cons use uses ih =>
    cases use with
    | insert a =>
      refine (ih (hs.insert a)).trans ?_
      rw [latest?_insert, hs.get?_insert]
      cases (s.insert a).latest? uses i with
      | some n => rfl
      | none =>
        by_cases hi : i = s.nextId
        · simp [hi]
        · have hi' : s.nextId ≠ i := fun h ↦ hi h.symm
          cases s.get? i <;> simp [hi, hi', Insertion.kept?, StoreUse.erases]
    | erase j =>
      refine (ih (hs.erase j)).trans ?_
      rw [get?_erase, latest?_erase]
      cases (s.erase j).latest? uses i with
      | some n => rfl
      | none =>
        by_cases hj : j = i
        · cases s.get? i <;> simp [hj, Insertion.kept?, StoreUse.erases]
        · cases s.get? i <;> simp [hj, Insertion.kept?, StoreUse.erases]

/-! ### Capacity -/

/-- An insertion makes room for its own number at the most. -/
theorem Sound.lt_capacity_insert (hs : s.Sound) (a : α) {i : Nat} :
    i < (s.insert a).capacity ↔ i < s.capacity ∨ i = s.nextId := by
  rw [SlotStore.insert, nextId]
  cases hf : s.free with
  | nil =>
    show i < (s.slots.push (some a)).size ↔ i < s.slots.size ∨ i = s.slots.size
    rw [Array.size_push]
    omega
  | cons k rest =>
    have hk := hs.empty_of_mem_free k (by simp [hf])
    have hlt : k < s.slots.size := (Array.getElem?_eq_some_iff.1 hk).1
    show i < (s.slots.setIfInBounds k (some a)).size ↔ i < s.slots.size ∨ i = k
    rw [Array.size_setIfInBounds]
    omega

/-- **The numbers below the capacity are those that have been handed out.** -/
theorem Sound.lt_capacity_after (hs : s.Sound) (uses : List (StoreUse α)) {i : Nat} :
    i < (s.after uses).capacity ↔ i < s.capacity ∨ ∃ n ∈ s.insertions uses, n.id = i := by
  induction uses generalizing s with
  | nil => simp [after, insertions]
  | cons use uses ih =>
    cases use with
    | insert a =>
      refine (ih (hs.insert a)).trans ?_
      rw [hs.lt_capacity_insert, insertions, List.exists_mem_cons_iff, or_assoc, @eq_comm _ i]
    | erase j =>
      refine (ih (hs.erase j)).trans ?_
      rw [capacity_erase, insertions]

theorem capacity_le_after (hs : s.Sound) (uses : List (StoreUse α)) :
    s.capacity ≤ (s.after uses).capacity :=
  le_of_forall_lt fun _ hi ↦ (hs.lt_capacity_after uses).2 (Or.inl hi)

/-- A store grows by at most one slot with each insertion. -/
theorem capacity_after_le (s : SlotStore α) (uses : List (StoreUse α)) :
    (s.after uses).capacity ≤ s.capacity + (s.insertions uses).length := by
  induction uses generalizing s with
  | nil => exact Nat.le_refl _
  | cons use uses ih =>
    cases use with
    | insert a =>
      have hle := ih (s.insert a)
      have hgrown : (s.insert a).capacity ≤ s.capacity + 1 := by
        rw [insert]
        split <;> simp [capacity]
      show ((s.insert a).after uses).capacity ≤ s.capacity + (((s.insert a).insertions uses).length + 1)
      omega
    | erase i =>
      have hle := ih (s.erase i)
      rw [capacity_erase] at hle
      exact hle

/-! ### Free numbers and numbers in use -/

/-- Every empty slot is on the stack of free numbers, and the count tells how many are not. -/
structure Accounted (s : SlotStore α) : Prop extends s.Sound where
  mem_free : ∀ {i}, s.slots[i]? = some none → i ∈ s.free
  count_add : s.count + s.free.length = s.capacity

theorem accounted_empty : (({} : SlotStore α)).Accounted where
  toSound := sound_empty
  mem_free h := absurd h (by simp)
  count_add := rfl

theorem Accounted.mem_free_iff (hs : s.Accounted) {i : Nat} : i ∈ s.free ↔ s.slots[i]? = some none :=
  ⟨hs.empty_of_mem_free i, hs.mem_free⟩

/-- **The count is that of the numbers in use.** -/
theorem Accounted.size_eq (hs : s.Accounted) : s.size = s.ids.length := by
  have hlength : s.ids.length + s.free.length = s.capacity := by
    refine length_add_length_of_range s.nodup_ids hs.nodup_free (fun i hi hfree ↦ ?_) fun i ↦ ?_
    · obtain ⟨a, ha⟩ := s.live_iff.1 (s.mem_ids.1 hi)
      rw [get?_eq_some_iff, hs.empty_of_mem_free i hfree] at ha
      simp at ha
    · rw [mem_ids, live_iff, hs.mem_free_iff]
      simp only [get?_eq_some_iff, capacity]
      rcases hslot : s.slots[i]? with _ | _ | a
      · simpa using Array.getElem?_eq_none_iff.1 hslot
      · simpa using (Array.getElem?_eq_some_iff.1 hslot).1
      · simpa using (Array.getElem?_eq_some_iff.1 hslot).1
  have hcount := hs.count_add
  show s.count = s.ids.length
  omega

theorem Accounted.insert (hs : s.Accounted) (a : α) : (s.insert a).Accounted where
  toSound := hs.toSound.insert a
  mem_free {i} h := by
    rw [SlotStore.insert] at h ⊢
    cases hf : s.free with
    | nil =>
      simp only [hf, Array.getElem?_push] at h
      split at h
      · simp at h
      · show i ∈ ([] : List Nat)
        rw [← hf]
        exact hs.mem_free h
    | cons k rest =>
      simp only [hf, Array.getElem?_setIfInBounds] at h
      split at h
      · split at h <;> simp at h
      · rename_i hk
        have hi : i ∈ k :: rest := hf ▸ hs.mem_free h
        exact (List.mem_cons.1 hi).resolve_left fun e ↦ hk e.symm
  count_add := by
    have hcount := hs.count_add
    rw [SlotStore.insert]
    cases hf : s.free with
    | nil =>
      rw [hf] at hcount
      show s.count + 1 + 0 = (s.slots.push (some a)).size
      rw [Array.size_push]
      simpa [capacity] using hcount
    | cons k rest =>
      rw [hf, List.length_cons, capacity] at hcount
      show s.count + 1 + rest.length = (s.slots.setIfInBounds k (some a)).size
      rw [Array.size_setIfInBounds]
      omega

theorem Accounted.erase (hs : s.Accounted) (i : Nat) : (s.erase i).Accounted where
  toSound := hs.toSound.erase i
  mem_free {j} h := by
    rw [SlotStore.erase] at h ⊢
    split
    · rename_i hl
      simp only [hl, if_true, Array.getElem?_setIfInBounds] at h
      split at h
      · rename_i hj
        exact hj ▸ List.mem_cons_self
      · exact List.mem_cons_of_mem _ (hs.mem_free h)
    · rename_i hl
      exact hs.mem_free (by simpa [hl] using h)
  count_add := by
    have hcount := hs.count_add
    rw [capacity_erase, SlotStore.erase]
    split
    · rename_i hl
      -- a number is in use, so the count is not zero
      have hpos : 0 < s.ids.length := List.length_pos_of_mem (s.mem_ids.2 hl)
      have hsize : s.count = s.ids.length := hs.size_eq
      show s.count - 1 + (s.free.length + 1) = s.capacity
      omega
    · exact hcount

theorem Accounted.after (hs : s.Accounted) (uses : List (StoreUse α)) : (s.after uses).Accounted := by
  induction uses generalizing s with
  | nil => exact hs
  | cons use uses ih =>
    cases use with
    | insert a => exact ih (hs.insert a)
    | erase i => exact ih (hs.erase i)

/-! ### What a history tells -/

/-- What some uses of a new store tell of the store that they lead to. -/
structure Recorded (s : SlotStore α) (uses : List (StoreUse α)) : Prop where
  /-- The number that the next value gets is not in use. -/
  live_nextId : s.live s.nextId = false
  /-- The value is found under it, and every other number reads as before. -/
  get?_insert : ∀ a i, (s.insert a).get? i = if i = s.nextId then some a else s.get? i
  /-- A number has the value of the latest insertion that got it, unless it has been erased since. -/
  get?_eq : ∀ i, s.get? i = (latest? {} uses i).bind Insertion.kept?
  /-- The free numbers are the empty slots, each listed once. -/
  nodup_free : s.free.Nodup
  mem_free_iff : ∀ i, i ∈ s.free ↔ s.slots[i]? = some none
  /-- The size is the number of numbers in use, and `ids` lists these in increasing order. -/
  size_eq : s.size = s.ids.length
  mem_ids_iff : ∀ i, i ∈ s.ids ↔ s.live i = true
  pairwise_ids : s.ids.Pairwise (· < ·)
  /-- The numbers that have ever been handed out are those below the capacity, which never shrinks and
  is at most the number of insertions. -/
  lt_capacity_iff : ∀ i, i < s.capacity ↔ ∃ n ∈ insertions {} uses, n.id = i
  capacity_le_after : ∀ more, s.capacity ≤ (s.after more).capacity
  capacity_le : s.capacity ≤ (insertions {} uses).length

/-- **A store is told by its history**, whatever that is; and the collector has a mark for a reference
whenever its number lies below the capacity of the store that it belongs to, that is, if the store has
ever handed it out. -/
theorem insertions_tell (uses : List (StoreUse α)) :
    (after {} uses).Recorded uses ∧
      ∀ (h : Heap) (r : Ref), (Marks.clear h).covers r = true ↔ h.Numbers r := by
  have haccounted : (after {} uses).Accounted := accounted_empty.after uses
  have hs : (after {} uses).Sound := haccounted.toSound
  have hempty (i : Nat) : get? ({} : SlotStore α) i = none := rfl
  refine ⟨?_, fun h r ↦ Heap.covers_clear⟩
  exact
    { live_nextId := by rw [live, hs.get?_nextId, Option.isSome_none]
      get?_insert := fun a i ↦ hs.get?_insert a i
      get?_eq := fun i ↦ by
        rw [sound_empty.get?_after, hempty, Option.map_none, Option.or_none]
      nodup_free := hs.nodup_free
      mem_free_iff := fun _ ↦ haccounted.mem_free_iff
      size_eq := haccounted.size_eq
      mem_ids_iff := fun _ ↦ mem_ids _
      pairwise_ids := List.pairwise_lt_range.filter _
      lt_capacity_iff := fun i ↦ by
        rw [sound_empty.lt_capacity_after]
        exact or_iff_right (Nat.not_lt_zero i)
      capacity_le_after := capacity_le_after hs
      capacity_le := by
        have hle := capacity_after_le ({} : SlotStore α) uses
        rwa [show capacity ({} : SlotStore α) = 0 from rfl, Nat.zero_add] at hle }

/-- A number that is erased twice is free once. -/
example : after {} [.insert 'a', .erase 0, .erase 0] = (⟨#[none], [0], 0⟩ : SlotStore Char) :=
  rfl

end SlotStore

end ObjectBridge
