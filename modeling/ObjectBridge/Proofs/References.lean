import ObjectBridge.Table

/-!
# References of a table

A reference is *allocated* from the call that hands it out to the call that releases it. The
released references are kept on a stack (`Table.References`), so that the next value gets either one
of those or a number never used before: in both cases a reference that is not allocated
(`not_allocated_nextReference`). What the two operations do to the allocated references
and to the values stored is said by `References.allocated_reference`, `get_reference`,
`allocated_unreference` and `get_unreference`.
-/

namespace ObjectBridge

namespace Table

variable (t : Table)

/-! ### Reading after a write -/

theorem get_set (k k' : Key) (v : Value) : (t.set k v).get k' = if k' = k then v else t.get k' := by
  rw [get, set, get]
  by_cases hv : v.isNil = true
  · have hnil : v = .nil := by cases v <;> simp_all [Value.isNil]
    rw [if_pos hv, Dict.find?_erase]
    split
    · rw [hnil]
      rfl
    · rfl
  · rw [if_neg hv, Dict.find?_insert]
    split <;> rfl

/-- What is stored under a key after a value other than nil has been stored, or nil. -/
theorem find?_set (k k' : Key) (v : Value) : (t.set k v).entries.find? k' =
    if k' = k then if v = .nil then none else some v else t.entries.find? k' := by
  rw [set]
  by_cases hv : v = .nil
  · subst hv
    rw [if_pos rfl]
    exact Dict.find?_erase _ _ _
  · have hnil : ¬ v.isNil = true := by cases v <;> simp_all [Value.isNil]
    rw [if_neg hnil, if_neg hv, Dict.find?_insert]

@[simp]
theorem nextRef_set (k : Key) (v : Value) : (t.set k v).nextRef = t.nextRef :=
  rfl

@[simp]
theorem freeRefs_set (k : Key) (v : Value) : (t.set k v).freeRefs = t.freeRefs :=
  rfl

@[simp]
theorem weakValues_set (k : Key) (v : Value) : (t.set k v).weakValues = t.weakValues :=
  rfl

/-! ### Allocated references -/

/-- A reference that was handed out and is not released. -/
def Allocated (r : Int) : Prop :=
  0 < r ∧ r < t.nextRef ∧ r.toNat ∉ t.freeRefs

/-- The released references were handed out, and each was released once. -/
structure References (t : Table) : Prop where
  nodup_free : t.freeRefs.Nodup
  pos_of_mem_free : ∀ r ∈ t.freeRefs, 0 < r
  lt_of_mem_free : ∀ r ∈ t.freeRefs, r < t.nextRef
  pos : 0 < t.nextRef

theorem references_empty : (({} : Table)).References where
  nodup_free := List.nodup_nil
  pos_of_mem_free _ h := absurd h List.not_mem_nil
  lt_of_mem_free _ h := absurd h List.not_mem_nil
  pos := Nat.one_pos

variable {t}

theorem References.set (hr : t.References) (k : Key) (v : Value) : (t.set k v).References :=
  ⟨hr.nodup_free, hr.pos_of_mem_free, hr.lt_of_mem_free, hr.pos⟩

/-- **The reference that the next value gets is not allocated.** -/
theorem not_allocated_nextReference (t : Table) : ¬ t.Allocated t.nextReference := by
  rintro ⟨-, hlt, hfree⟩
  rw [nextReference] at hlt hfree
  cases hf : t.freeRefs with
  | nil =>
    rw [hf, List.headD_nil] at hlt
    omega
  | cons r rest =>
    rw [hf, List.headD_cons, Int.toNat_natCast] at hfree
    exact hfree List.mem_cons_self

theorem References.reference (hr : t.References) (v : Value) : (t.reference v).References := by
  rw [Table.reference]
  have hn := hr.nodup_free
  cases hf : t.freeRefs with
  | nil =>
    refine ⟨List.nodup_nil, fun r h ↦ absurd h List.not_mem_nil,
      fun r h ↦ absurd h List.not_mem_nil, ?_⟩
    show 0 < t.nextRef + 1
    omega
  | cons r rest =>
    rw [hf, List.nodup_cons] at hn
    have hsub : ∀ {x}, x ∈ rest → x ∈ t.freeRefs := fun {x} h ↦ by
      rw [hf]
      exact List.mem_cons_of_mem r h
    exact ⟨hn.2, fun x h ↦ hr.pos_of_mem_free x (hsub h), fun x h ↦ hr.lt_of_mem_free x (hsub h),
      hr.pos⟩

/-- Storing a value allocates one more reference. -/
theorem References.allocated_reference (hr : t.References) (v : Value) (r : Int) :
    (t.reference v).Allocated r ↔ r = t.nextReference ∨ t.Allocated r := by
  have hn := hr.nodup_free
  have hpos := hr.pos
  rw [Table.reference, nextReference]
  cases hf : t.freeRefs with
  | nil =>
    simp only [Allocated, nextRef_set, freeRefs_set, hf, List.headD_nil]
    have hnil : r.toNat ∉ ([] : List Nat) := List.not_mem_nil
    simp only [hnil, not_false_eq_true, and_true]
    omega
  | cons s rest =>
    have hs : s ∈ t.freeRefs := by
      rw [hf]
      exact List.mem_cons_self
    have hs0 := hr.pos_of_mem_free s hs
    have hslt := hr.lt_of_mem_free s hs
    rw [hf, List.nodup_cons] at hn
    simp only [Allocated, nextRef_set, freeRefs_set, hf, List.headD_cons, List.mem_cons, not_or]
    constructor
    · rintro ⟨h0, hlt, hfree⟩
      by_cases hrs : r.toNat = s
      · exact Or.inl (by omega)
      · exact Or.inr ⟨h0, hlt, hrs, hfree⟩
    · rintro (rfl | ⟨h0, hlt, -, hfree⟩)
      · exact ⟨by omega, by omega, by rw [Int.toNat_natCast]; exact hn.1⟩
      · exact ⟨h0, hlt, hfree⟩

/-- The value is found under its reference, and every other position reads as before. -/
theorem get_reference (v : Value) (k : Key) :
    (t.reference v).get k = if k = .integer t.nextReference then v else t.get k := by
  rw [reference, nextReference]
  cases hf : t.freeRefs with
  | nil => rw [get_set, List.headD_nil]; rfl
  | cons r rest => rw [get_set, List.headD_cons]; rfl

theorem find?_reference {v : Value} (hv : v ≠ .nil) (k : Key) :
    (t.reference v).entries.find? k =
      if k = .integer t.nextReference then some v else t.entries.find? k := by
  rw [reference, nextReference]
  cases hf : t.freeRefs with
  | nil => rw [find?_set, if_neg hv, List.headD_nil]
  | cons r rest => rw [find?_set, if_neg hv, List.headD_cons]

@[simp]
theorem weakValues_reference (v : Value) : (t.reference v).weakValues = t.weakValues := by
  rw [reference]
  cases t.freeRefs <;> rfl

theorem unreference_of_allocated {r : Int} (h : t.Allocated r) :
    t.unreference r = { t.set (.integer r) .nil with freeRefs := r.toNat :: t.freeRefs } := by
  exact (if_pos h).trans rfl

theorem unreference_of_not_allocated {r : Int} (h : ¬ t.Allocated r) : t.unreference r = t :=
  if_neg h

theorem References.unreference (hr : t.References) (r : Int) : (t.unreference r).References := by
  by_cases h : t.Allocated r
  · obtain ⟨h0, hlt, hfree⟩ := h
    rw [unreference_of_allocated ⟨h0, hlt, hfree⟩]
    refine ⟨List.nodup_cons.2 ⟨hfree, hr.nodup_free⟩, fun x hx ↦ ?_, fun x hx ↦ ?_, hr.pos⟩
    · rcases List.mem_cons.1 hx with rfl | hx
      · omega
      · exact hr.pos_of_mem_free x hx
    · show x < t.nextRef
      rcases List.mem_cons.1 hx with rfl | hx
      · omega
      · exact hr.lt_of_mem_free x hx
  · rwa [unreference_of_not_allocated h]

/-- **Releasing a reference takes it, and no other, from the allocated ones.** -/
theorem allocated_unreference (r s : Int) :
    (t.unreference r).Allocated s ↔ t.Allocated s ∧ s ≠ r := by
  by_cases h : t.Allocated r
  · rw [unreference_of_allocated h]
    obtain ⟨h0, -, -⟩ := h
    show 0 < s ∧ s < t.nextRef ∧ s.toNat ∉ r.toNat :: t.freeRefs ↔ _
    rw [List.mem_cons, not_or, Allocated]
    constructor
    · rintro ⟨hs, hlt, hne, hfree⟩
      exact ⟨⟨hs, hlt, hfree⟩, fun e ↦ hne (by rw [e])⟩
    · rintro ⟨⟨hs, hlt, hfree⟩, hne⟩
      exact ⟨hs, hlt, fun e ↦ hne (by omega), hfree⟩
  · rw [unreference_of_not_allocated h]
    exact ⟨fun hs ↦ ⟨hs, fun e ↦ h (e ▸ hs)⟩, And.left⟩

/-- A released reference reads as nil, and every other position as before. -/
theorem get_unreference {r : Int} (h : t.Allocated r) (k : Key) :
    (t.unreference r).get k = if k = .integer r then .nil else t.get k := by
  rw [unreference_of_allocated h]
  exact get_set t (.integer r) k .nil

/-- There is nothing under a released reference, and what there was under every other key. -/
theorem find?_unreference {r : Int} (h : t.Allocated r) (k : Key) :
    (t.unreference r).entries.find? k = if k = .integer r then none else t.entries.find? k := by
  rw [unreference_of_allocated h]
  exact find?_set t (.integer r) k .nil

/-- Releasing a reference leaves the other positions alone. -/
theorem get_unreference_of_ne {r : Int} {k : Key} (hk : k ≠ .integer r) :
    (t.unreference r).get k = t.get k := by
  by_cases h : t.Allocated r
  · rw [get_unreference h, if_neg hk]
  · rw [unreference_of_not_allocated h]

@[simp]
theorem weakValues_unreference (r : Int) : (t.unreference r).weakValues = t.weakValues := by
  by_cases h : t.Allocated r
  · rw [unreference_of_allocated h]
    rfl
  · rw [unreference_of_not_allocated h]

end Table

end ObjectBridge
