import ObjectBridge.Proofs.Collection
import ObjectBridge.Proofs.References

/-!
# What a cycle leaves of a heap

A cycle of the collector may be complete or end at a stray reference, and what it has done by then
stays done. In both cases the heap afterwards is one that `Heap.Thins` describes, in the terms in
which the bridge relies on it: no userdata is another one than before, what the roots reach is still
there, tables that keep their values alive are as they were, and tables with weak values have lost
only entries whose objects the roots do not reach.
-/

namespace ObjectBridge

/-- A table that has lost entries, but none whose value is alive. -/
structure Table.Sheds (alive : Ref → Prop) (t t' : Table) : Prop where
  weakValues : t'.weakValues = t.weakValues
  freeRefs : t'.freeRefs = t.freeRefs
  nextRef : t'.nextRef = t.nextRef
  old : ∀ {k v}, t'.entries.find? k = some v → t.entries.find? k = some v
  kept : ∀ {k v}, t.entries.find? k = some v → v.KeptBy alive → t'.entries.find? k = some v

namespace Table.Sheds

variable {alive : Ref → Prop} {t t' : Table}

theorem refl (t : Table) : t.Sheds alive t :=
  ⟨rfl, rfl, rfl, fun h ↦ h, fun h _ ↦ h⟩

/-- A table that keeps the values that a test accepts. -/
theorem filter {p : Value → Bool} (hp : ∀ {v : Value}, v.KeptBy alive → p v = true) (t : Table) :
    t.Sheds alive { t with entries := t.entries.filter fun _ v ↦ p v } where
  weakValues := rfl
  freeRefs := rfl
  nextRef := rfl
  old h := by
    rw [Dict.find?_filter, Option.filter_eq_some_iff] at h
    exact h.1
  kept h hv := by
    rw [Dict.find?_filter, Option.filter_eq_some_iff]
    exact ⟨h, hp hv⟩

theorem references (hs : t.Sheds alive t') (ht : t.References) : t'.References := by
  refine ⟨?_, ?_, ?_, ?_⟩
  · rw [hs.freeRefs]
    exact ht.nodup_free
  · rw [hs.freeRefs]
    exact ht.pos_of_mem_free
  · rw [hs.freeRefs, hs.nextRef]
    exact ht.lt_of_mem_free
  · rw [hs.nextRef]
    exact ht.pos

theorem allocated (hs : t.Sheds alive t') {r : Int} (hr : t.Allocated r) : t'.Allocated r := by
  rw [Table.Allocated, hs.freeRefs, hs.nextRef]
  exact hr

/-- What is under a key stays there, or there is nothing any more. -/
theorem get (hs : t.Sheds alive t') (k : Key) : t'.get k = t.get k ∨ t'.get k = .nil := by
  rw [Table.get, Table.get]
  cases h : t'.entries.find? k with
  | none => exact Or.inr rfl
  | some v => exact Or.inl (by rw [hs.old h])

/-- What is under a key stays there if it is alive. -/
theorem get_of_alive (hs : t.Sheds alive t') {k : Key} {v : Value} (hv : t.get k = v)
    (hnil : v ≠ .nil) (halive : v.KeptBy alive) : t'.get k = v := by
  rw [Table.get] at hv ⊢
  cases h : t.entries.find? k with
  | none =>
    rw [h] at hv
    exact absurd hv.symm hnil
  | some u =>
    rw [h, Option.getD_some] at hv
    rw [hs.kept (hv ▸ h) halive, Option.getD_some]

end Table.Sheds

namespace Heap

variable {h h' : Heap} {roots : List Value}

/-- **What a table holds can be reached** if the table can be, and keeps its values alive. -/
theorem Rooted.entry {id : Nat} {t : Table} (hr : h.Rooted roots (.table id))
    (ht : h.tables.get? id = some t) (hstrong : t.weakValues = false) {k : Key} {v : Value}
    (hk : t.entries.find? k = some v) {r : Ref} (hv : v.ref? = some r) : h.Rooted roots r := by
  refine .link hr ?_
  simp only [links, ht]
  rw [Table.links, List.mem_append, List.mem_flatMap]
  refine Or.inr ⟨(k, v), (t.entries.mem_toList_iff _ _).2 hk, ?_⟩
  rw [Table.entryLinks, Table.holds, hstrong]
  simp [hv]

/-- What is left of a heap after a cycle, complete or not. -/
structure Thins (h : Heap) (roots : List Value) (h' : Heap) : Prop where
  sound : h.userdata.Sound → h'.userdata.Sound
  /-- A userdata that is there has the content it had. -/
  userdata : ∀ {id u'}, h'.userdata.get? id = some u' →
    ∃ u, h.userdata.get? id = some u ∧ u'.content = u.content
  rooted : ∀ {r}, h.live r = true → h.Rooted roots r → h'.live r = true
  strong : ∀ {id t}, h.tables.get? id = some t → t.weakValues = false →
    h.Rooted roots (.table id) → h'.tables.get? id = some t
  /-- A weak table keeps no userdata that is gone. -/
  weak : ∀ {id t}, h.tables.get? id = some t → t.weakValues = true →
    h.Rooted roots (.table id) → ∃ t', h'.tables.get? id = some t' ∧
      t.Sheds (h.Rooted roots) t' ∧ ∀ {k u}, t'.entries.find? k = some (.userdata u) →
        h.userdata.live u = true → h'.userdata.live u = true

theorem Thins.refl (h : Heap) (roots : List Value) : h.Thins roots h where
  sound hs := hs
  userdata {_ u'} hu := ⟨u', hu, rfl⟩
  rooted hl _ := hl
  strong ht _ _ := ht
  weak {_ t} ht _ _ := ⟨t, ht, Table.Sheds.refl t, fun _ hl ↦ hl⟩

theorem sound_flagFinalized (hs : h.userdata.Sound) (ids : List Nat) :
    (h.flagFinalized ids).userdata.Sound := by
  induction ids generalizing h with
  | nil => exact hs
  | cons id ids ih => exact ih (hs.modify id _)

/-! ### Cycles that are complete -/

theorem sound_collect {c : Collection} (hc : h.collect roots = .ok c) (hs : h.userdata.Sound) :
    c.heap.userdata.Sound := by
  rw [collect] at hc
  split at hc
  · exact absurd hc (by simp)
  · simp only at hc
    split at hc
    · exact absurd hc (by simp)
    · split at hc
      · exact absurd hc (by simp)
      · rw [← Except.ok.inj hc]
        exact (sound_flagFinalized (h := clearWeak _ _ _) hs _).foldl_erase _

theorem Collects.userdata_content {c : Collection} (hc : h.Collects roots c) {id : Nat}
    {u' : Userdata} (hu : c.heap.userdata.get? id = some u') :
    ∃ u, h.userdata.get? id = some u ∧ u'.content = u.content := by
  have hlive : c.heap.live (.userdata id) = true := by
    rw [live, SlotStore.live, hu]
    rfl
  obtain ⟨hl, hkept⟩ := (hc.live_iff _).1 hlive
  obtain ⟨u, hold⟩ := h.userdata.live_iff.1 hl
  by_cases hdue : h.Due roots id
  · have hflag := hc.userdata_flagged id u hold hdue
    rw [hu] at hflag
    exact ⟨u, hold, by rw [Option.some.inj hflag]⟩
  · have hsame := hc.userdata id hkept hdue
    rw [hu, hold] at hsame
    exact ⟨u, hold, by rw [Option.some.inj hsame]⟩

/-- **A complete cycle.** -/
theorem thins_of_collect {c : Collection} (hc : h.collect roots = .ok c) : h.Thins roots c.heap := by
  have hcollects := collects_of_collect hc
  refine ⟨sound_collect hc, hcollects.userdata_content, fun {r} hl hr ↦ ?_,
    fun {id t} ht hw hr ↦ ?_, fun {id t} ht hw hr ↦ ?_⟩
  · exact (hcollects.live_iff r).2 ⟨hl, hr.kept⟩
  · exact hcollects.table id t ht hr.kept fun hweak ↦ by simp [hw] at hweak
  · refine ⟨_, hcollects.table_pruned id t ht hw hr, ⟨rfl, rfl, rfl, fun h ↦ ?_, fun h hv ↦ ?_⟩,
      fun {k u} hu hl ↦ ?_⟩
    · exact ((t.find?_prune _ _ _).1 h).1
    · exact (t.find?_prune _ _ _).2 ⟨h, hv⟩
    · have hreached := ((t.find?_prune _ _ _).1 hu).2 _ rfl
      exact (hcollects.live_iff (.userdata u)).2 ⟨hl, hreached.kept⟩

/-! ### Cycles that end at a stray reference -/

/-- The clearing step, as far as the tables below `bound`, and flags on userdata. -/
theorem thins_clearWeak {m : Marks} (hm : ∀ r, m.has r = true ↔ h.Rooted roots r) (bound : Nat)
    (ids : List Nat) : h.Thins roots ((h.clearWeak m bound).flagFinalized ids) := by
  have huserdata : ∀ id, ((h.clearWeak m bound).flagFinalized ids).userdata.get? id =
      if id ∈ ids then (h.userdata.get? id).map fun u ↦ { u with finalized := true }
      else h.userdata.get? id := get?_flagFinalized _ ids
  have hlive : ∀ {r}, h.live r = true → ((h.clearWeak m bound).flagFinalized ids).live r = true :=
    (h.live_flagFinalized_clearWeak m bound ids).trans
  have htables : ∀ id, ((h.clearWeak m bound).flagFinalized ids).tables.get? id =
      (h.clearWeak m bound).tables.get? id := fun id ↦ by rw [tables_flagFinalized]
  refine ⟨fun hs ↦ sound_flagFinalized (h := h.clearWeak m bound) hs ids,
    fun {id u'} hu ↦ ?_, fun hl _ ↦ hlive hl, fun {id t} ht hw _ ↦ ?_, fun {id t} ht hw _ ↦ ?_⟩
  · rw [huserdata] at hu
    split at hu
    · obtain ⟨u, hold, rfl⟩ := Option.map_eq_some_iff.1 hu
      exact ⟨u, hold, rfl⟩
    · exact ⟨u', hu, rfl⟩
  · rw [htables, clearWeak, SlotStore.get?_mapValues, ht, Option.map_some, if_neg]
    simp [hw]
  · rw [htables, clearWeak, SlotStore.get?_mapValues, ht, Option.map_some]
    refine ⟨_, rfl, ?_, fun {_ u} _ hl ↦ hlive (r := .userdata u) hl⟩
    split
    · exact Table.Sheds.filter (fun hv ↦ (hasValue_iff hm _).2 hv) t
    · exact Table.Sheds.refl t

/-- **A cycle that ends at a stray reference.** -/
theorem thins_of_collect_error {i : Interruption} (hi : h.collect roots = .error i) :
    h.Thins roots i.heap := by
  rcases exists_of_collect_error hi with heq | ⟨m, bound, ids, hm, heq⟩
  · rw [heq]
    exact Thins.refl h roots
  · rw [heq]
    exact thins_clearWeak hm bound ids

end Heap

end ObjectBridge
