import ObjectBridge.Pins
import ObjectBridge.Proofs.References
import ObjectBridge.Proofs.SlotStore

/-!
# Pins and their references

A pin takes a number twice: a slot among the pins, which is free again as soon as the last handle is
dropped, and a reference in the table of pinned objects, which is queued then and released later. So a
slot may be used again while the reference that went with it before still waits.

`PinTable.Keeps` says how slots, references and queue belong together for the handles that the host holds,
and each operation on pins keeps it up: `Keeps.add`, `Keeps.addHandle`, `Keeps.dropHandle`, and for the
queue `Keeps.flush`. The references that are allocated are those that are held and those that are queued,
and no reference is both; so a reference that waits in the queue is not handed out again.
-/

namespace ObjectBridge

/-- A handle that the host holds: its slot, and the value that it pins under a reference. All copies of a
handle are alike. -/
structure Held where
  index : Nat
  reference : Int
  value : Value
  /-- The object of the value was there when it was pinned. -/
  there : Bool
  deriving DecidableEq

namespace PinTable

variable {t : PinTable} {T : Table} {held : List Held} {h h' : Held}

/-- **Pins, and the table of pinned objects, are in order** for the handles that are held. -/
structure Keeps (t : PinTable) (T : Table) (held : List Held) : Prop where
  pins : t.pins.Sound
  references : T.References
  strong : T.weakValues = false
  /-- A slot counts the copies of its handle. -/
  slot : ∀ {h}, h ∈ held → t.pins.get? h.index = some ⟨h.reference, held.count h⟩
  /-- A slot is in use only if a handle to it is held. -/
  occupied : ∀ {i p}, t.pins.get? i = some p → ∃ h ∈ held, h.index = i
  /-- A reference is one handle's and its copies'. -/
  unique : ∀ {h h'}, h ∈ held → h' ∈ held → h.reference = h'.reference → h = h'
  stored : ∀ {h}, h ∈ held → T.entries.find? (.integer h.reference) = some h.value
  nodup : t.released.Nodup
  apart : ∀ {h}, h ∈ held → h.reference ∉ t.released
  allocated : ∀ {r}, T.Allocated r ↔ r ∈ t.released ∨ ∃ h ∈ held, h.reference = r
  entries : ∀ {k v}, T.entries.find? k = some v → ∃ r, k = .integer r ∧ T.Allocated r

theorem keeps_empty : PinTable.Keeps {} {} [] where
  pins := SlotStore.sound_empty
  references := Table.references_empty
  strong := rfl
  slot h := absurd h List.not_mem_nil
  occupied {i p} h := by
    simp [SlotStore.get?] at h
  unique h := absurd h List.not_mem_nil
  stored h := absurd h List.not_mem_nil
  nodup := List.nodup_nil
  apart h := absurd h List.not_mem_nil
  allocated {r} := by
    refine iff_of_false (fun h ↦ ?_) (by simp)
    have h1 : r < 1 := h.2.1
    have h0 := h.1
    omega
  entries h := absurd ((Dict.find?_empty _).symm.trans h) (by simp)

/-- **A slot is one handle's** and its copies'. -/
theorem Keeps.eq_of_index (hk : t.Keeps T held) (hh : h ∈ held) (hh' : h' ∈ held)
    (hindex : h.index = h'.index) : h = h' := by
  have hslot := hk.slot hh
  rw [hindex, hk.slot hh', Option.some.injEq, Pin.mk.injEq] at hslot
  exact hk.unique hh hh' hslot.1.symm

theorem Keeps.reference?_eq (hk : t.Keeps T held) (hh : h ∈ held) :
    t.reference? h.index = some h.reference := by
  rw [reference?, hk.slot hh, Option.map_some]

theorem Keeps.allocated_of_mem (hk : t.Keeps T held) (hh : h ∈ held) : T.Allocated h.reference :=
  hk.allocated.2 (.inr ⟨h, hh, rfl⟩)

/-- **A reference in the queue is not the one that is handed out next.** -/
theorem Keeps.ne_nextReference (hk : t.Keeps T held) {r : Int} (hr : r ∈ t.released) :
    r ≠ T.nextReference := by
  rintro rfl
  exact Table.not_allocated_nextReference T (hk.allocated.2 (.inl hr))

/-! ### Pinning -/

/-- The slot of the next pin is of no handle that is held. -/
theorem Keeps.index_ne_nextIndex (hk : t.Keeps T held) (hh : h ∈ held) : h.index ≠ t.nextIndex := by
  intro heq
  have hfree : t.pins.get? h.index = none := by
    rw [heq]
    exact hk.pins.get?_nextId
  exact absurd (hfree.symm.trans (hk.slot hh)) (by simp)

/-- Nor is the reference of the next pin. -/
theorem Keeps.reference_ne_nextReference (hk : t.Keeps T held) (hh : h ∈ held) :
    h.reference ≠ T.nextReference := fun heq ↦
  Table.not_allocated_nextReference T (heq ▸ hk.allocated_of_mem hh)

/-- **A value is pinned**: its slot and its reference are of no handle that is held. -/
theorem Keeps.add (hk : t.Keeps T held) {v : Value} (hv : v ≠ .nil) {there : Bool} {new : Held}
    (hnew : new = ⟨t.nextIndex, T.nextReference, v, there⟩) :
    (t.add T.nextReference).Keeps (T.reference v) (new :: held) := by
  have hne {h : Held} (hh : h ∈ held) : new ≠ h := by
    rintro rfl
    exact hk.index_ne_nextIndex hh (by rw [hnew])
  have hget (i : Nat) : (t.add T.nextReference).pins.get? i =
      if i = t.nextIndex then some ⟨T.nextReference, 1⟩ else t.pins.get? i := hk.pins.get?_insert _ i
  have hfind := T.find?_reference hv
  refine ⟨hk.pins.insert _, hk.references.reference v, (Table.weakValues_reference v).trans hk.strong,
    fun {h} hh ↦ ?_, fun {i p} hi ↦ ?_, fun {h h'} hh hh' heq ↦ ?_, fun {h} hh ↦ ?_, hk.nodup,
    fun {h} hh ↦ ?_, fun {r} ↦ ?_, fun {k u} hu ↦ ?_⟩
  · rw [hget]
    rcases List.mem_cons.1 hh with rfl | hold
    · have hcount : held.count h = 0 := List.count_eq_zero.2 fun hold ↦ hne hold rfl
      rw [List.count_cons_self, hcount, hnew]
      exact if_pos rfl
    · rw [if_neg (hk.index_ne_nextIndex hold), hk.slot hold, List.count_cons_of_ne (hne hold)]
  · rw [hget] at hi
    split at hi
    · rename_i heq
      exact ⟨new, List.mem_cons_self, by rw [hnew, heq]⟩
    · obtain ⟨h, hh, heq⟩ := hk.occupied hi
      exact ⟨h, List.mem_cons_of_mem _ hh, heq⟩
  · rcases List.mem_cons.1 hh with rfl | hold <;> rcases List.mem_cons.1 hh' with rfl | hold'
    · rfl
    · exact absurd (heq.symm.trans (by rw [hnew])) (hk.reference_ne_nextReference hold')
    · exact absurd (heq.trans (by rw [hnew])) (hk.reference_ne_nextReference hold)
    · exact hk.unique hold hold' heq
  · rw [hfind]
    rcases List.mem_cons.1 hh with rfl | hold
    · rw [if_pos (by rw [hnew]), hnew]
    · rw [if_neg (by simpa using hk.reference_ne_nextReference hold), hk.stored hold]
  · rcases List.mem_cons.1 hh with rfl | hold
    · exact fun hr ↦ hk.ne_nextReference hr (by rw [hnew])
    · exact hk.apart hold
  · rw [hk.references.allocated_reference, hk.allocated, List.exists_mem_cons_iff, hnew, eq_comm]
    exact or_left_comm
  · rw [hfind] at hu
    split at hu
    · rename_i heq
      exact ⟨_, heq, (hk.references.allocated_reference v _).2 (.inl rfl)⟩
    · obtain ⟨r, hr, hallocated⟩ := hk.entries hu
      exact ⟨r, hr, (hk.references.allocated_reference v r).2 (.inr hallocated)⟩

/-! ### Copying and dropping handles -/

/-- **A handle is copied.** -/
theorem Keeps.addHandle (hk : t.Keeps T held) (hh : h ∈ held) :
    (t.addHandle h.index).Keeps T (h :: held) := by
  have hget (i : Nat) : (t.addHandle h.index).pins.get? i = if h.index = i then
      (t.pins.get? i).map fun p ↦ { p with handles := p.handles + 1 } else t.pins.get? i :=
    t.pins.get?_modify _ i _
  have hmem {h' : Held} (hh' : h' ∈ h :: held) : h' ∈ held :=
    (List.mem_cons.1 hh').elim (fun heq ↦ heq ▸ hh) id
  refine ⟨hk.pins.modify _ _, hk.references, hk.strong, fun {h'} hh' ↦ ?_, fun {i p} hi ↦ ?_,
    fun hh hh' ↦ hk.unique (hmem hh) (hmem hh'), fun hh ↦ hk.stored (hmem hh), hk.nodup,
    fun hh ↦ hk.apart (hmem hh), fun {r} ↦ ?_, hk.entries⟩
  · rw [hget, hk.slot (hmem hh')]
    by_cases heq : h = h'
    · subst heq
      rw [if_pos rfl, List.count_cons_self, Option.map_some]
    · rw [if_neg fun hindex ↦ heq (hk.eq_of_index hh (hmem hh') hindex), List.count_cons_of_ne heq]
  · rw [hget] at hi
    split at hi
    · rename_i heq
      exact ⟨h, List.mem_cons_self, heq⟩
    · obtain ⟨h', hh', heq⟩ := hk.occupied hi
      exact ⟨h', List.mem_cons_of_mem _ hh', heq⟩
  · rw [show (t.addHandle h.index).released = t.released from rfl, hk.allocated,
      List.exists_mem_cons_iff]
    exact or_congr_right ⟨.inr, fun hr ↦ hr.elim (fun heq ↦ ⟨h, hh, heq⟩) id⟩

/-- What dropping a handle queues: the reference, if it was the last handle. -/
theorem Keeps.released_dropHandle (hk : t.Keeps T held) (hh : h ∈ held) :
    (t.dropHandle h.index).released =
      if held.count h = 1 then t.released ++ [h.reference] else t.released := by
  rw [dropHandle, hk.slot hh]
  dsimp only
  split <;> rfl

/-- A handle that has copies is still held when one of them is dropped. -/
private theorem mem_erase_of_copies (hh : h ∈ held) (hcopies : held.count h ≠ 1) :
    h' ∈ held.erase h ↔ h' ∈ held := by
  by_cases heq : h' = h
  · subst heq
    have hpos := List.count_pos_iff.2 hh
    refine iff_of_true (List.count_pos_iff.1 ?_) hh
    rw [List.count_erase_self]
    omega
  · exact List.mem_erase_of_ne heq

private theorem mem_erase_of_last (hlast : held.count h = 1) :
    h' ∈ held.erase h ↔ h' ≠ h ∧ h' ∈ held := by
  by_cases heq : h' = h
  · subst heq
    refine iff_of_false (List.count_eq_zero.1 ?_) fun h ↦ h.1 rfl
    rw [List.count_erase_self, hlast]
  · rw [List.mem_erase_of_ne heq, and_iff_right heq]

/-- **A copy of a handle is dropped**: the slot stays, and counts one less. -/
theorem Keeps.dropCopy (hk : t.Keeps T held) (hh : h ∈ held) (hcopies : held.count h ≠ 1) :
    Keeps { t with pins := t.pins.modify h.index fun p ↦ { p with handles := p.handles - 1 } } T
      (held.erase h) := by
  have hget (i : Nat) := t.pins.get?_modify h.index i fun p ↦ { p with handles := p.handles - 1 }
  have hmem {h' : Held} : h' ∈ held.erase h ↔ h' ∈ held := mem_erase_of_copies hh hcopies
  refine ⟨hk.pins.modify _ _, hk.references, hk.strong, fun {h'} hh' ↦ ?_, fun {i p} hi ↦ ?_,
    fun hh hh' ↦ hk.unique (hmem.1 hh) (hmem.1 hh'), fun hh ↦ hk.stored (hmem.1 hh), hk.nodup,
    fun hh ↦ hk.apart (hmem.1 hh), hk.allocated.trans (by simp only [hmem]), hk.entries⟩
  · rw [hget, hk.slot (hmem.1 hh')]
    by_cases heq : h = h'
    · subst heq
      rw [if_pos rfl, List.count_erase_self, Option.map_some]
    · rw [if_neg fun hindex ↦ heq (hk.eq_of_index hh (hmem.1 hh') hindex),
        List.count_erase_of_ne (Ne.symm heq)]
  · have hbefore : ∃ p, t.pins.get? i = some p := by
      rw [hget] at hi
      split at hi
      · obtain ⟨p, hp, -⟩ := Option.map_eq_some_iff.1 hi
        exact ⟨p, hp⟩
      · exact ⟨p, hi⟩
    obtain ⟨p, hp⟩ := hbefore
    obtain ⟨h', hh', heq⟩ := hk.occupied hp
    exact ⟨h', hmem.2 hh', heq⟩

/-- **The last handle of a pin is dropped**: its slot is free, and its reference waits in the queue. -/
theorem Keeps.dropLast (hk : t.Keeps T held) (hh : h ∈ held) (hlast : held.count h = 1) :
    Keeps ⟨t.pins.erase h.index, t.released ++ [h.reference]⟩ T (held.erase h) := by
  have hget (i : Nat) := t.pins.get?_erase h.index i
  have hmem {h' : Held} : h' ∈ held.erase h ↔ h' ≠ h ∧ h' ∈ held := mem_erase_of_last hlast
  have hheld {h' : Held} (hh' : h' ∈ held.erase h) : h' ∈ held := List.mem_of_mem_erase hh'
  refine ⟨hk.pins.erase _, hk.references, hk.strong, fun {h'} hh' ↦ ?_, fun {i p} hi ↦ ?_,
    fun hh hh' ↦ hk.unique (hheld hh) (hheld hh'), fun hh ↦ hk.stored (hheld hh), ?_,
    fun {h'} hh' hr ↦ ?_, fun {r} ↦ ?_, hk.entries⟩
  · obtain ⟨hne, hh'⟩ := hmem.1 hh'
    rw [hget, if_neg fun hindex ↦ hne (hk.eq_of_index hh hh' hindex).symm, hk.slot hh',
      List.count_erase_of_ne hne]
  · rw [hget] at hi
    split at hi
    · exact absurd hi (by simp)
    · rename_i hother
      obtain ⟨h', hh', rfl⟩ := hk.occupied hi
      exact ⟨h', hmem.2 ⟨fun heq ↦ hother (by rw [heq]), hh'⟩, rfl⟩
  · refine List.nodup_append'.2 ⟨hk.nodup, List.nodup_singleton _, fun r hr hr' ↦ ?_⟩
    exact hk.apart hh (List.mem_singleton.1 hr' ▸ hr)
  · obtain ⟨hne, hh'⟩ := hmem.1 hh'
    rcases List.mem_append.1 hr with hr | hr
    · exact hk.apart hh' hr
    · exact hne (hk.unique hh' hh (List.mem_singleton.1 hr))
  · rw [hk.allocated, List.mem_append, List.mem_singleton, or_assoc]
    refine or_congr_right ⟨?_, ?_⟩
    · rintro ⟨h', hh', rfl⟩
      by_cases heq : h' = h
      · exact .inl (by rw [heq])
      · exact .inr ⟨h', hmem.2 ⟨heq, hh'⟩, rfl⟩
    · rintro (rfl | ⟨h', hh', rfl⟩)
      · exact ⟨h, hh, rfl⟩
      · exact ⟨h', hheld hh', rfl⟩

/-- **A handle is dropped.** -/
theorem Keeps.dropHandle (hk : t.Keeps T held) (hh : h ∈ held) :
    (t.dropHandle h.index).Keeps T (held.erase h) := by
  rw [PinTable.dropHandle, hk.slot hh]
  dsimp only
  split
  · exact hk.dropLast hh ‹_›
  · exact hk.dropCopy hh ‹_›

/-! ### The queue -/

/-- The first reference of the queue is released. -/
theorem Keeps.unreference {pins : SlotStore Pin} {r : Int} {rest : List Int}
    (hk : Keeps ⟨pins, r :: rest⟩ T held) : Keeps ⟨pins, rest⟩ (T.unreference r) held := by
  have hr : T.Allocated r := hk.allocated.2 (.inl List.mem_cons_self)
  have hfind := Table.find?_unreference hr
  obtain ⟨hnot, hnodup⟩ := List.nodup_cons.1 hk.nodup
  have hne {h : Held} (hh : h ∈ held) : h.reference ≠ r := fun heq ↦
    hk.apart hh (heq ▸ List.mem_cons_self)
  refine ⟨hk.pins, hk.references.unreference r, (Table.weakValues_unreference r).trans hk.strong, hk.slot,
    hk.occupied, hk.unique, fun {h} hh ↦ ?_, hnodup,
    fun hh hr ↦ hk.apart hh (List.mem_cons_of_mem _ hr), fun {s} ↦ ?_, fun {k v} hv ↦ ?_⟩
  · rw [hfind, if_neg (by simpa using hne hh), hk.stored hh]
  · rw [Table.allocated_unreference, hk.allocated]
    constructor
    · rintro ⟨hs | hs, hsr⟩
      · exact .inl ((List.mem_cons.1 hs).resolve_left hsr)
      · exact .inr hs
    · rintro (hs | ⟨h, hh, rfl⟩)
      · exact ⟨.inl (List.mem_cons_of_mem _ hs), fun heq ↦ hnot (heq ▸ hs)⟩
      · exact ⟨.inr ⟨h, hh, rfl⟩, hne hh⟩
  · rw [hfind] at hv
    split at hv
    · exact absurd hv (by simp)
    · rename_i hother
      obtain ⟨s, rfl, hs⟩ := hk.entries hv
      exact ⟨s, rfl, (Table.allocated_unreference r s).2 ⟨hs, fun heq ↦ hother (by rw [heq])⟩⟩

/-- **All references of the queue are released.** -/
theorem Keeps.flush (hk : t.Keeps T held) :
    Keeps { t with released := [] } (t.released.foldl Table.unreference T) held := by
  obtain ⟨pins, released⟩ := t
  induction released generalizing T with
  | nil => exact hk
  | cons r rest ih => exact ih hk.unreference

/-- **With nothing in the queue, the table holds the values of the handles** and nothing else. -/
theorem Keeps.find?_eq_some_iff (hk : t.Keeps T held) (hreleased : t.released = []) {k : Key} {v : Value} :
    T.entries.find? k = some v ↔ ∃ h ∈ held, k = .integer h.reference ∧ v = h.value := by
  constructor
  · intro hv
    obtain ⟨r, rfl, hr⟩ := hk.entries hv
    rw [hk.allocated, hreleased] at hr
    obtain ⟨h, hh, rfl⟩ := hr.resolve_left List.not_mem_nil
    exact ⟨h, hh, rfl, Option.some.inj (hv.symm.trans (hk.stored hh))⟩
  · rintro ⟨h, hh, rfl, rfl⟩
    exact hk.stored hh

end PinTable

end ObjectBridge
