import ObjectBridge.Machine
import ObjectBridge.Proofs.Collection
import ObjectBridge.Proofs.References

/-!
# Orderly heaps

A heap is orderly if its storage is: strings are found by text just if they are found by number,
numbers that wait for reuse are not in use, and the references that tables have released were handed
out (`Heap.Orderly`). Nothing is said about what objects refer to. So this is an invariant that no
program can break: each operation on a heap keeps it, whatever its operands are, and so does a cycle
of the collector, whether it succeeds (`Orderly.collect`) or meets a stray reference
(`Orderly.collect_error`).
-/

namespace ObjectBridge

namespace Heap

/-- The storage of a heap is in order. -/
structure Orderly (h : Heap) : Prop where
  strings : h.strings.Consistent
  tables : h.tables.Sound
  functions : h.functions.Sound
  userdata : h.userdata.Sound
  references : ∀ id t, h.tables.get? id = some t → t.References

theorem orderly_empty : ({} : Heap).Orderly where
  strings := StringPool.consistent_empty
  tables := SlotStore.sound_empty
  functions := SlotStore.sound_empty
  userdata := SlotStore.sound_empty
  references _ _ h := absurd h (by simp [SlotStore.get?])

namespace Orderly

variable {h : Heap} {m : Marks}

/-! ### Operations -/

theorem intern (ho : h.Orderly) (s : String) : (h.intern s).2.Orderly :=
  ⟨ho.strings.intern s, ho.tables, ho.functions, ho.userdata, ho.references⟩

theorem addTable (ho : h.Orderly) {t : Table} (ht : t.References) : (h.addTable t).2.Orderly := by
  refine ⟨ho.strings, ho.tables.insert t, ho.functions, ho.userdata, fun id t' ht' ↦ ?_⟩
  have hread : (h.tables.insert t).get? id = some t' := ht'
  rw [ho.tables.get?_insert] at hread
  split at hread
  · obtain rfl := Option.some.inj hread
    exact ht
  · exact ho.references id t' hread

theorem addFunction (ho : h.Orderly) (f : Function) : (h.addFunction f).2.Orderly :=
  ⟨ho.strings, ho.tables, ho.functions.insert f, ho.userdata, ho.references⟩

theorem addUserdata (ho : h.Orderly) (u : Userdata) : (h.addUserdata u).2.Orderly :=
  ⟨ho.strings, ho.tables, ho.functions, ho.userdata.insert u, ho.references⟩

/-- A change of a table that leaves its references in order. -/
theorem modifyTable (ho : h.Orderly) (id : Nat) {f : Table → Table}
    (hf : ∀ t, t.References → (f t).References) : (h.modifyTable id f).Orderly := by
  refine ⟨ho.strings, ho.tables.modify id f, ho.functions, ho.userdata, fun id' t ht ↦ ?_⟩
  have hread : (h.tables.modify id f).get? id' = some t := ht
  rw [SlotStore.get?_modify] at hread
  split at hread
  · obtain ⟨t', ht', rfl⟩ := Option.map_eq_some_iff.1 hread
    exact hf t' (ho.references id' t' ht')
  · exact ho.references id' t hread

theorem modifyUserdata (ho : h.Orderly) (id : Nat) (f : Userdata → Userdata) :
    (h.modifyUserdata id f).Orderly :=
  ⟨ho.strings, ho.tables, ho.functions, ho.userdata.modify id f, ho.references⟩

/-! ### Cycles -/

theorem clearWeak (ho : h.Orderly) (m : Marks) (bound : Nat) : (h.clearWeak m bound).Orderly := by
  refine ⟨ho.strings, ho.tables.mapValues _, ho.functions, ho.userdata, fun id t ht ↦ ?_⟩
  rw [Heap.clearWeak, SlotStore.get?_mapValues] at ht
  obtain ⟨t', ht', rfl⟩ := Option.map_eq_some_iff.1 ht
  have hr := ho.references id t' ht'
  -- Entries are taken out, and references are not released by that.
  split
  · exact ⟨hr.nodup_free, hr.pos_of_mem_free, hr.lt_of_mem_free, hr.pos⟩
  · exact hr

theorem flagFinalized (ho : h.Orderly) (ids : List Nat) : (h.flagFinalized ids).Orderly := by
  induction ids generalizing h with
  | nil => exact ho
  | cons id ids ih => exact ih (ho.modifyUserdata id _)

theorem sweep (ho : h.Orderly) (m : Marks) : (h.sweep m).Orderly where
  strings := ho.strings.foldl_erase _
  tables := ho.tables.foldl_erase _
  functions := ho.functions.foldl_erase _
  userdata := ho.userdata.foldl_erase _
  references id t ht := by
    rw [get?_sweep_tables] at ht
    split at ht
    · exact ho.references id t ht
    · exact absurd ht (by simp)

/-- **A cycle leaves the heap orderly.** -/
theorem collect (ho : h.Orderly) {roots : List Value} {c : Collection}
    (hc : h.collect roots = .ok c) : c.heap.Orderly := by
  obtain ⟨m, kept, -, -, -, hheap, -⟩ := exists_of_collect hc
  rw [hheap]
  exact ((ho.clearWeak _ _).flagFinalized _).sweep kept

/-- A cycle that meets a stray reference leaves the heap orderly. -/
theorem collect_error (ho : h.Orderly) {roots : List Value} {i : Interruption}
    (hi : h.collect roots = .error i) : i.heap.Orderly := by
  rcases exists_of_collect_error hi with heq | ⟨m, bound, ids, -, heq⟩
  · rw [heq]
    exact ho
  · rw [heq]
    exact (ho.clearWeak m bound).flagFinalized ids

end Orderly

end Heap

/-- A machine begins with an orderly heap. -/
theorem Machine.orderly_initial : Machine.initial.heap.Orderly :=
  (Heap.orderly_empty.addTable Table.references_empty).addTable Table.references_empty

end ObjectBridge
