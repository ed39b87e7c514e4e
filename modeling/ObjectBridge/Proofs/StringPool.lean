import ObjectBridge.Proofs.SlotStore
import ObjectBridge.StringPool

/-!
# Interning

A string pool keeps its texts twice: by number and, in the index, by text. The two agree in every
pool that the operations make from the empty one (`StringPool.Consistent`), and so equal texts have
one number (`Consistent.intern_text?`), for as long as the string is in the pool.
-/

namespace ObjectBridge

namespace StringPool

variable {p : StringPool}

/-! ### Reading after an erasure -/

theorem text?_erase (p : StringPool) (i j : Nat) :
    (p.erase i).text? j = if i = j then none else p.text? j := by
  unfold erase
  split
  · exact p.texts.get?_erase i j
  · rename_i hi
    split
    · rename_i hij
      exact hij ▸ hi
    · rfl

theorem text?_foldl_erase (p : StringPool) (l : List Nat) (j : Nat) :
    (l.foldl erase p).text? j = if j ∈ l then none else p.text? j := by
  induction l generalizing p with
  | nil => simp
  | cons i l ih =>
    rw [List.foldl_cons, ih, text?_erase]
    by_cases hl : j ∈ l
    · simp [hl]
    · by_cases hi : i = j
      · simp [hi]
      · have hne : j ≠ i := fun e ↦ hi e.symm
        simp [hi, hne, hl]

/-- Erasing the strings that do not satisfy `q` leaves those that do. -/
theorem text?_sweep (p : StringPool) (q : Nat → Bool) (j : Nat) :
    ((p.texts.ids.filter fun i ↦ !q i).foldl erase p).text? j =
      if q j then p.text? j else none := by
  rw [text?_foldl_erase]
  simp only [List.mem_filter, SlotStore.mem_ids, SlotStore.live, text?]
  cases q j <;> cases p.texts.get? j <;> simp

/-! ### The two directions agree -/

/-- The index finds a text under a number exactly when the text is stored there. -/
structure Consistent (p : StringPool) : Prop where
  sound : p.texts.Sound
  lookup_iff : ∀ s id, p.lookup s = some id ↔ p.text? id = some s

/-- The two directions agree if every text that the index finds, and every text that is stored, is found
the other way. -/
theorem consistent_iff : p.Consistent ↔ p.texts.Sound ∧
    (∀ b ∈ p.index.toList, p.text? b.2 = some b.1) ∧
    ∀ id < p.texts.capacity, (p.text? id).all fun s ↦ p.lookup s = some id := by
  constructor
  · intro hp
    refine ⟨hp.sound, fun b hb ↦ ?_, fun id _ ↦ ?_⟩
    · exact (hp.lookup_iff b.1 b.2).1 ((p.index.mem_toList_iff b.1 b.2).1 hb)
    · cases h : p.text? id with
      | none => rfl
      | some s => simpa using (hp.lookup_iff s id).2 h
  · rintro ⟨hsound, hindex, htexts⟩
    refine ⟨hsound, fun s id ↦ ⟨fun h ↦ ?_, fun h ↦ ?_⟩⟩
    · exact hindex (s, id) ((p.index.mem_toList_iff s id).2 h)
    · have hid := htexts id (p.texts.lt_capacity_of_get? h)
      rw [h] at hid
      simpa using hid

instance (p : StringPool) : Decidable p.Consistent :=
  decidable_of_iff _ consistent_iff.symm

theorem consistent_empty : (({} : StringPool)).Consistent where
  sound := SlotStore.sound_empty
  lookup_iff s id := by simp [lookup, text?, SlotStore.get?]

/-- **Interning finds the text again.** -/
theorem Consistent.intern_text? (hp : p.Consistent) (s : String) :
    (p.intern s).2.text? (p.intern s).1 = some s := by
  unfold intern
  cases hl : p.lookup s with
  | some id => exact (hp.lookup_iff s id).1 hl
  | none =>
    show (p.texts.insert s).get? p.texts.nextId = some s
    rw [hp.sound.get?_insert, if_pos rfl]

/-- Interning leaves the texts that are there where they are. -/
theorem Consistent.text?_intern_of_some (hp : p.Consistent) (s : String) {id : Nat} {s' : String}
    (h : p.text? id = some s') : (p.intern s).2.text? id = some s' := by
  unfold intern
  cases hl : p.lookup s with
  | some _ => exact h
  | none =>
    show (p.texts.insert s).get? id = some s'
    have hne : id ≠ p.texts.nextId := by
      rintro rfl
      rw [text?, hp.sound.get?_nextId] at h
      exact absurd h (by simp)
    rw [hp.sound.get?_insert, if_neg hne]
    exact h

theorem Consistent.intern (hp : p.Consistent) (s : String) : (p.intern s).2.Consistent := by
  unfold StringPool.intern
  cases hl : p.lookup s with
  | some id => exact hp
  | none =>
    refine ⟨hp.sound.insert s, fun s' id ↦ ?_⟩
    show (p.index.insert s p.texts.nextId).find? s' = some id ↔
      (p.texts.insert s).get? id = some s'
    rw [Dict.find?_insert, hp.sound.get?_insert]
    by_cases hs : s' = s
    · subst hs
      have hno : p.texts.get? id ≠ some s' := fun h ↦ by
        rw [(hp.lookup_iff s' id).2 h] at hl
        exact absurd hl (by simp)
      by_cases hid : id = p.texts.nextId
      · simp [hid]
      · have hid' : p.texts.nextId ≠ id := fun e ↦ hid e.symm
        simp [hid, hid', hno]
    · have hs' : s ≠ s' := fun e ↦ hs e.symm
      rw [if_neg hs]
      by_cases hid : id = p.texts.nextId
      · subst hid
        simp only [if_true, Option.some.injEq, hs', iff_false]
        intro h
        have h' := (hp.lookup_iff s' _).1 h
        rw [text?, hp.sound.get?_nextId] at h'
        exact absurd h' (by simp)
      · rw [if_neg hid]
        exact hp.lookup_iff s' id

theorem Consistent.erase (hp : p.Consistent) (id : Nat) : (p.erase id).Consistent := by
  unfold StringPool.erase
  cases ht : p.text? id with
  | none => exact hp
  | some s =>
    refine ⟨hp.sound.erase id, fun s' id' ↦ ?_⟩
    show (p.index.erase s).find? s' = some id' ↔ (p.texts.erase id).get? id' = some s'
    rw [Dict.find?_erase, p.texts.get?_erase]
    by_cases hid : id = id'
    · subst hid
      have hne : ∀ x, ¬ (p.lookup x = some id ∧ x ≠ s) := by
        rintro x ⟨hx, hxs⟩
        rw [(hp.lookup_iff x id).1 hx] at ht
        exact hxs (Option.some.inj ht)
      by_cases hs : s' = s
      · simp [hs]
      · have hl : p.index.find? s' ≠ some id := fun h ↦ hne s' ⟨h, hs⟩
        simp [hs, hl]
    · by_cases hs : s' = s
      · subst hs
        have hno : p.texts.get? id' ≠ some s' := fun h ↦ by
          have h₁ := (hp.lookup_iff s' id').2 h
          have h₂ := (hp.lookup_iff s' id).2 ht
          rw [h₁] at h₂
          exact hid (Option.some.inj h₂).symm
        simp [hid, hno]
      · rw [if_neg hs, if_neg hid]
        exact hp.lookup_iff s' id'

theorem Consistent.foldl_erase (hp : p.Consistent) (l : List Nat) :
    (l.foldl StringPool.erase p).Consistent := by
  induction l generalizing p with
  | nil => exact hp
  | cons id l ih => exact ih (hp.erase id)

end StringPool

end ObjectBridge
