import Mathlib.Tactic.IntervalCases
import ObjectBridge.Heap.Collect
import ObjectBridge.Proofs.StringPool
import ObjectBridge.Proofs.Tracing

/-!
# What a cycle collects

A cycle of the collector traces twice with a clearing step between, and each step is coded over
marks. `Heap.collect_spec` says what comes of it in terms of reachability alone:

* `Heap.Rooted`: what can be reached from the roots;
* `Heap.Due`: the userdata that cannot, have a finalizer, and have not been finalized;
* `Heap.Kept`: what can be reached from the roots and from the userdata that are due.

What is kept stays under its number, and nothing else stays. The second trace follows the links of
the heap as the first one left it, with weak tables cleared and userdata flagged; it finds the same
objects, since only tables that were reached lose entries, and whatever they refer to was reached
as well (`Heap.reaches_settle`).

All this is about heaps in which no reference strays: `Heap.Numbered` bounds every number that
occurs in a heap by the capacity of the storage it is a number of.
-/

namespace ObjectBridge

namespace Heap

/-! ### References within bounds -/

/-- A reference to a number that the heap has handed out at some time. -/
def Numbers (h : Heap) : Ref → Prop
  | .string id => id < h.strings.texts.capacity
  | .table id => id < h.tables.capacity
  | .function id => id < h.functions.capacity
  | .userdata id => id < h.userdata.capacity

/-- No reference of the heap or of the roots strays. -/
structure Numbered (h : Heap) (roots : List Value) : Prop where
  root : ∀ v ∈ roots, ∀ r, v.ref? = some r → h.Numbers r
  table_metatable : ∀ id t, h.tables.get? id = some t →
    ∀ mt, t.metatable = some mt → h.Numbers (.table mt)
  table_key : ∀ id t, h.tables.get? id = some t →
    ∀ e ∈ t.entries.toList, ∀ r, e.1.ref? = some r → h.Numbers r
  table_value : ∀ id t, h.tables.get? id = some t →
    ∀ e ∈ t.entries.toList, ∀ r, e.2.ref? = some r → h.Numbers r
  userdata_metatable : ∀ id u, h.userdata.get? id = some u →
    ∀ mt, u.metatable = some mt → h.Numbers (.table mt)
  userdata_value : ∀ id u, h.userdata.get? id = some u →
    ∀ r, u.userValue.ref? = some r → h.Numbers r

instance (h : Heap) : (r : Ref) → Decidable (h.Numbers r)
  | .string _ | .table _ | .function _ | .userdata _ => Nat.decLt _ _

/-- It is enough to look at the tables and the userdata that are there. -/
theorem numbered_iff {h : Heap} {roots : List Value} : h.Numbered roots ↔
    (∀ v ∈ roots, ∀ r ∈ v.ref?, h.Numbers r) ∧
    (∀ id ∈ h.tables.ids, ∀ t ∈ h.tables.get? id, (∀ mt ∈ t.metatable, h.Numbers (.table mt)) ∧
      ∀ e ∈ t.entries.toList, (∀ r ∈ e.1.ref?, h.Numbers r) ∧ ∀ r ∈ e.2.ref?, h.Numbers r) ∧
    ∀ id ∈ h.userdata.ids, ∀ u ∈ h.userdata.get? id, (∀ mt ∈ u.metatable, h.Numbers (.table mt)) ∧
      ∀ r ∈ u.userValue.ref?, h.Numbers r := by
  constructor
  · intro hn
    exact ⟨fun v hv r hr ↦ hn.root v hv r hr, fun id _ t ht ↦
      ⟨fun mt hmt ↦ hn.table_metatable id t ht mt hmt, fun e he ↦
        ⟨fun r hr ↦ hn.table_key id t ht e he r hr, fun r hr ↦ hn.table_value id t ht e he r hr⟩⟩,
      fun id _ u hu ↦ ⟨fun mt hmt ↦ hn.userdata_metatable id u hu mt hmt, fun r hr ↦
        hn.userdata_value id u hu r hr⟩⟩
  · rintro ⟨hroots, htables, huserdata⟩
    have htable {id : Nat} {t : Table} (ht : h.tables.get? id = some t) :=
      htables id (h.tables.mem_ids.2 (h.tables.live_iff.2 ⟨t, ht⟩)) t ht
    have huser {id : Nat} {u : Userdata} (hu : h.userdata.get? id = some u) :=
      huserdata id (h.userdata.mem_ids.2 (h.userdata.live_iff.2 ⟨u, hu⟩)) u hu
    exact ⟨fun v hv r hr ↦ hroots v hv r hr, fun id t ht mt hmt ↦ (htable ht).1 mt hmt,
      fun id t ht e he r hr ↦ ((htable ht).2 e he).1 r hr,
      fun id t ht e he r hr ↦ ((htable ht).2 e he).2 r hr,
      fun id u hu mt hmt ↦ (huser hu).1 mt hmt, fun id u hu r hr ↦ (huser hu).2 r hr⟩

instance (h : Heap) (roots : List Value) : Decidable (h.Numbered roots) :=
  decidable_of_iff _ numbered_iff.symm

/-! ### Reachability in a cycle -/

/-- What can be reached from the roots. -/
def Rooted (h : Heap) (roots : List Value) : Ref → Prop :=
  h.Reaches {r | r ∈ roots.filterMap Value.ref?}

/-- A userdata whose finalizer is due: it has one, it has not been finalized, and it cannot be
reached from the roots. -/
structure Due (h : Heap) (roots : List Value) (id : Nat) : Prop where
  unreached : ¬ h.Rooted roots (.userdata id)
  pending : ∃ u, h.userdata.get? id = some u ∧ u.finalized = false ∧ h.hasFinalizer u = true

/-- What can be reached from the roots and from the userdata that are due. -/
def Kept (h : Heap) (roots : List Value) : Ref → Prop :=
  h.Reaches {r | r ∈ roots.filterMap Value.ref? ∨ ∃ id, r = .userdata id ∧ h.Due roots id}

theorem Rooted.kept {h : Heap} {roots : List Value} {r : Ref} (hr : h.Rooted roots r) :
    h.Kept roots r :=
  hr.mono fun _ hm ↦ Or.inl hm

end Heap

/-- A value keeps its entry in a weak table as long as the object it refers to, if any, is alive. -/
def Value.KeptBy (alive : Ref → Prop) (v : Value) : Prop :=
  ∀ r, v.ref? = some r → alive r

open scoped Classical in
/-- A table with the entries whose values are alive. -/
noncomputable def Table.prune (t : Table) (alive : Ref → Prop) : Table :=
  { t with entries := t.entries.filter fun _ v ↦ decide (v.KeptBy alive) }

open scoped Classical in
/-- **Pruning keeps exactly the entries whose values are alive.** -/
theorem Table.find?_prune (t : Table) (alive : Ref → Prop) (k : Key) (v : Value) :
    (t.prune alive).entries.find? k = some v ↔
      t.entries.find? k = some v ∧ v.KeptBy alive := by
  rw [prune, Dict.find?_filter, Option.filter_eq_some_iff, decide_eq_true_iff]

namespace Heap

variable {h : Heap} {roots : List Value}

/-! ### Marks of a heap -/

theorem covers_clear {r : Ref} : (Marks.clear h).covers r = true ↔ h.Numbers r := by
  rw [Marks.covers_iff]
  cases r <;> simp [Marks.flags, Marks.clear, Numbers, Ref.id]

theorem has_clear (h : Heap) (r : Ref) : ¬ (Marks.clear h).has r = true := by
  cases r <;> simp [Marks.has, Marks.clear, Array.getElem?_replicate] <;> split <;> simp

theorem Numbered.link (hn : h.Numbered roots) (r : Ref) : ∀ r' ∈ h.links r, h.Numbers r' := by
  intro r' hl
  cases r with
  | string | function => exact absurd hl List.not_mem_nil
  | table id =>
    rw [links] at hl
    cases ht : h.tables.get? id with
    | none => simp [ht] at hl
    | some t =>
      simp only [ht] at hl
      rw [Table.links, List.mem_append, Option.mem_toList, Option.map_eq_some_iff,
        List.mem_flatMap] at hl
      rcases hl with ⟨mt, hmt, rfl⟩ | ⟨e, he, hl⟩
      · exact hn.table_metatable id t ht mt hmt
      · rw [Table.entryLinks, List.mem_append, Option.mem_toList] at hl
        rcases hl with hl | hl
        · exact hn.table_key id t ht e he r' hl
        · split at hl
          · exact hn.table_value id t ht e he r' (Option.mem_toList.1 hl)
          · exact absurd hl List.not_mem_nil
  | userdata id =>
    rw [links] at hl
    cases hu : h.userdata.get? id with
    | none => simp [hu] at hl
    | some u =>
      simp only [hu] at hl
      rw [Userdata.links, List.mem_append, Option.mem_toList, Option.mem_toList,
        Option.map_eq_some_iff] at hl
      rcases hl with ⟨mt, hmt, rfl⟩ | hl
      · exact hn.userdata_metatable id u hu mt hmt
      · exact hn.userdata_value id u hu r' hl

/-! ### The clearing step -/

/-- The heap between the two traces: weak tables cleared, due userdata flagged. -/
def settle (h : Heap) (m : Marks) (due : List Nat) : Heap :=
  (h.clearWeak m h.tables.capacity).flagFinalized due

theorem tables_flagFinalized (h : Heap) (ids : List Nat) :
    (h.flagFinalized ids).tables = h.tables := by
  induction ids generalizing h with
  | nil => rfl
  | cons id ids ih => exact ih _

theorem functions_flagFinalized (h : Heap) (ids : List Nat) :
    (h.flagFinalized ids).functions = h.functions := by
  induction ids generalizing h with
  | nil => rfl
  | cons id ids ih => exact ih _

theorem strings_flagFinalized (h : Heap) (ids : List Nat) :
    (h.flagFinalized ids).strings = h.strings := by
  induction ids generalizing h with
  | nil => rfl
  | cons id ids ih => exact ih _

theorem get?_flagFinalized (h : Heap) (ids : List Nat) (id : Nat) :
    (h.flagFinalized ids).userdata.get? id =
      if id ∈ ids then (h.userdata.get? id).map fun u ↦ { u with finalized := true }
      else h.userdata.get? id := by
  induction ids generalizing h with
  | nil => simp [flagFinalized]
  | cons i ids ih =>
    rw [flagFinalized, List.foldl_cons]
    refine (ih _).trans ?_
    rw [modifyUserdata, SlotStore.get?_modify]
    by_cases hi : i = id
    · subst hi
      by_cases hm : i ∈ ids
      · cases h.userdata.get? i <;> simp [hm]
      · simp [hm]
    · have hne : id ≠ i := fun e ↦ hi e.symm
      simp [hi, hne]

/-- The clearing step and the flags remove no object. -/
theorem live_flagFinalized_clearWeak (m : Marks) (bound : Nat) (ids : List Nat) {r : Ref} :
    ((h.clearWeak m bound).flagFinalized ids).live r = h.live r := by
  cases r with
  | string id => rw [live, live, strings_flagFinalized, clearWeak]
  | table id =>
    rw [live, live, tables_flagFinalized, clearWeak, SlotStore.live, SlotStore.get?_mapValues,
      Option.isSome_map, SlotStore.live]
  | function id => rw [live, live, functions_flagFinalized, clearWeak]
  | userdata id =>
    rw [live, live, SlotStore.live, get?_flagFinalized, clearWeak, SlotStore.live]
    split
    · rw [Option.isSome_map]
    · rfl

variable {m : Marks} {due : List Nat}

theorem get?_settle_userdata (id : Nat) :
    (h.settle m due).userdata.get? id =
      if id ∈ due then (h.userdata.get? id).map fun u ↦ { u with finalized := true }
      else h.userdata.get? id :=
  get?_flagFinalized _ _ _

/-- Only marked tables with weak values lose entries. -/
theorem get?_settle_tables (id : Nat) :
    (h.settle m due).tables.get? id = (h.tables.get? id).map fun t ↦
      if t.weakValues && m.has (.table id) then
        { t with entries := t.entries.filter fun _ v ↦ m.hasValue v }
      else t := by
  rw [settle, tables_flagFinalized, clearWeak, SlotStore.get?_mapValues]
  cases ht : h.tables.get? id with
  | none => rfl
  | some t =>
    have hid : id < h.tables.capacity := h.tables.lt_capacity_of_get? ht
    simp [hid]

/-- A userdata that is flagged keeps its links. -/
theorem links_settle_userdata (id : Nat) :
    (h.settle m due).links (.userdata id) = h.links (.userdata id) := by
  rw [links, links, get?_settle_userdata]
  by_cases hd : id ∈ due
  · rw [if_pos hd]
    cases h.userdata.get? id <;> rfl
  · rw [if_neg hd]

/-- The clearing step only takes links away. -/
theorem links_settle_subset (r : Ref) : (h.settle m due).links r ⊆ h.links r := by
  cases r with
  | string | function => exact List.Subset.refl _
  | table id =>
    rw [links, links, get?_settle_tables]
    cases ht : h.tables.get? id with
    | none => exact List.Subset.refl _
    | some t =>
      simp only [Option.map_some]
      split
      · intro x hx
        rw [Table.links, List.mem_append, List.mem_flatMap] at hx ⊢
        refine hx.imp_right ?_
        rintro ⟨e, he, hx⟩
        exact ⟨e, (List.mem_filter.1 he).1, hx⟩
      · exact List.Subset.refl _
  | userdata id =>
    rw [links_settle_userdata]
    exact List.Subset.refl _

/-- What was not marked keeps its links. -/
theorem links_settle_of_not_has {r : Ref} (hr : ¬ m.has r = true) :
    (h.settle m due).links r = h.links r := by
  cases r with
  | string | function => rfl
  | table id =>
    rw [links, links, get?_settle_tables]
    cases ht : h.tables.get? id <;> simp [hr]
  | userdata id => exact links_settle_userdata id

/-- **The clearing step does not change what can be reached**: an object that loses links was
marked, and then so was all that its links name. -/
theorem reaches_settle {s : Set Ref} (hm : h.Closed {r | m.has r = true})
    (hs : {r | m.has r = true} ⊆ s) (r : Ref) :
    (h.settle m due).Reaches s r ↔ h.Reaches s r := by
  constructor
  · intro hr
    refine hr.mem_of_closed (s := {r | h.Reaches s r}) (fun x hx y hl ↦ ?_) fun _ hx ↦ .root hx
    exact .link hx (links_settle_subset x hl)
  · intro hr
    refine hr.mem_of_closed (s := {r | (h.settle m due).Reaches s r}) (fun x hx y hl ↦ ?_)
      fun _ hx ↦ .root hx
    by_cases hmx : m.has x = true
    · exact .root (hs (hm x hmx y hl))
    · exact .link hx ((links_settle_of_not_has hmx).symm ▸ hl)

/-! ### The sweep -/

/-- **The sweep empties exactly the slots that are not marked.** -/
theorem text?_sweep (id : Nat) :
    (h.sweep m).strings.text? id = if m.has (.string id) then h.strings.text? id else none :=
  h.strings.text?_sweep (fun id ↦ m.has (.string id)) id

theorem get?_sweep_tables (id : Nat) :
    (h.sweep m).tables.get? id = if m.has (.table id) then h.tables.get? id else none :=
  h.tables.get?_sweep (fun id ↦ m.has (.table id)) id

theorem get?_sweep_functions (id : Nat) :
    (h.sweep m).functions.get? id =
      if m.has (.function id) then h.functions.get? id else none :=
  h.functions.get?_sweep (fun id ↦ m.has (.function id)) id

theorem get?_sweep_userdata (id : Nat) :
    (h.sweep m).userdata.get? id =
      if m.has (.userdata id) then h.userdata.get? id else none :=
  h.userdata.get?_sweep (fun id ↦ m.has (.userdata id)) id

/-! ### The cycle -/

/-- What a cycle makes of a heap, in terms of reachability. -/
structure Collects (h : Heap) (roots : List Value) (c : Collection) : Prop where
  /-- What stays is what was there and is kept. -/
  live_iff : ∀ r, c.heap.live r = true ↔ h.live r = true ∧ h.Kept roots r
  text : ∀ id, h.Kept roots (.string id) → c.heap.strings.text? id = h.strings.text? id
  function : ∀ id, h.Kept roots (.function id) → c.heap.functions.get? id = h.functions.get? id
  /-- A weak table that is reached from the roots keeps the entries whose values are, too. -/
  table_pruned : ∀ id t, h.tables.get? id = some t → t.weakValues = true →
    h.Rooted roots (.table id) → c.heap.tables.get? id = some (t.prune (h.Rooted roots))
  table : ∀ id t, h.tables.get? id = some t → h.Kept roots (.table id) →
    ¬ (t.weakValues = true ∧ h.Rooted roots (.table id)) → c.heap.tables.get? id = some t
  userdata_flagged : ∀ id u, h.userdata.get? id = some u → h.Due roots id →
    c.heap.userdata.get? id = some { u with finalized := true }
  userdata : ∀ id, h.Kept roots (.userdata id) → ¬ h.Due roots id →
    c.heap.userdata.get? id = h.userdata.get? id
  mem_due_iff : ∀ id, id ∈ c.due ↔ h.Due roots id
  nodup_due : c.due.Nodup

/-- The first trace of a cycle marks what can be reached from the roots. -/
theorem trace_roots (ht : h.trace (Marks.clear h) (roots.filterMap Value.ref?) = .ok m) :
    (∀ r, m.has r = true ↔ h.Rooted roots r) ∧ ∀ r, m.covers r = true ↔ h.Numbers r := by
  have mk := trace_spec (fun r hr ↦ absurd hr (has_clear h r)) ht
  refine ⟨fun r ↦ ?_, fun r ↦ ?_⟩
  · have hset : {r | (Marks.clear h).has r = true ∨ r ∈ roots.filterMap Value.ref?} =
        {r | r ∈ roots.filterMap Value.ref?} :=
      Set.ext fun x ↦ or_iff_right (has_clear h x)
    rw [mk.has_iff, hset]
    rfl
  · rw [mk.covers_iff, covers_clear]

theorem mem_dueFinalizers (hm : ∀ r, m.has r = true ↔ h.Rooted roots r) (id : Nat) :
    id ∈ h.dueFinalizers m ↔ h.Due roots id := by
  rw [dueFinalizers, List.mem_filter, SlotStore.mem_ids, SlotStore.live_iff, Bool.and_eq_true,
    Bool.not_eq_true', ← Bool.not_eq_true, hm]
  constructor
  · rintro ⟨⟨u, hu⟩, hr, hp⟩
    simp only [hu, Bool.and_eq_true, Bool.not_eq_true'] at hp
    exact ⟨hr, u, hu, hp⟩
  · rintro ⟨hr, u, hu, hf, hg⟩
    exact ⟨⟨u, hu⟩, hr, by simp [hu, hf, hg]⟩

/-- The second trace of a cycle marks what is kept, although it follows the links that the clearing
step has left. -/
theorem trace_due {m' : Marks} (hm : ∀ r, m.has r = true ↔ h.Rooted roots r)
    (hd : ∀ id, id ∈ due ↔ h.Due roots id)
    (ht : (h.settle m due).trace m (due.map Ref.userdata) = .ok m') (r : Ref) :
    m'.has r = true ↔ h.Kept roots r := by
  have hrooted : {r | m.has r = true} = {r | h.Rooted roots r} := Set.ext hm
  have hclosed : h.Closed {r | m.has r = true} := hrooted ▸ closed_reaches h _
  have mk := trace_spec (fun x hx y hl ↦ hclosed x hx y (links_settle_subset x hl)) ht
  have hsub : {r | m.has r = true} ⊆ {r | m.has r = true ∨ r ∈ due.map Ref.userdata} :=
    fun _ hx ↦ Or.inl hx
  rw [mk.has_iff, reaches_settle hclosed hsub]
  constructor
  · intro hr
    refine hr.mem_of_closed (s := {r | h.Kept roots r}) (closed_reaches h _) fun x hx ↦ ?_
    rcases hx with hx | hx
    · exact ((hm x).1 hx).kept
    · obtain ⟨id, hid, rfl⟩ := List.mem_map.1 hx
      exact .root (Or.inr ⟨id, rfl, (hd id).1 hid⟩)
  · intro hr
    refine hr.mem_of_closed (closed_reaches h _) fun x hx ↦ ?_
    rcases hx with hx | ⟨id, rfl, hid⟩
    · exact .root (Or.inl ((hm x).2 (.root hx)))
    · exact .root (Or.inr (List.mem_map.2 ⟨id, (hd id).2 hid, rfl⟩))

/-- The values that marks keep in a weak table are those that are alive. -/
theorem hasValue_iff (hm : ∀ r, m.has r = true ↔ h.Rooted roots r) (v : Value) :
    m.hasValue v = true ↔ v.KeptBy (h.Rooted roots) := by
  rw [Marks.hasValue, Value.KeptBy]
  cases hv : v.ref? with
  | none => simp
  | some r => simp [hm]

open scoped Classical in
theorem filter_hasValue (hm : ∀ r, m.has r = true ↔ h.Rooted roots r) (t : Table) :
    { t with entries := t.entries.filter fun _ v ↦ m.hasValue v } = t.prune (h.Rooted roots) := by
  have heq : (fun (_ : Key) v ↦ m.hasValue v) = fun _ v ↦ decide (v.KeptBy (h.Rooted roots)) := by
    funext _ v
    rw [Bool.eq_iff_iff, hasValue_iff hm, decide_eq_true_iff]
  rw [heq, Table.prune]

/-- What the marks of the two traces say about the heap that is left. -/
theorem collects_sweep {kept : Marks} {c : Collection}
    (hm : ∀ r, m.has r = true ↔ h.Rooted roots r) (hd : ∀ id, id ∈ due ↔ h.Due roots id)
    (hk : ∀ r, kept.has r = true ↔ h.Kept roots r) (hheap : c.heap = (h.settle m due).sweep kept)
    (hdue : c.due = due) (hnd : due.Nodup) : h.Collects roots c := by
  have htext : ∀ id, c.heap.strings.text? id =
      if kept.has (.string id) then h.strings.text? id else none := fun id ↦ by
    rw [hheap, text?_sweep, settle, strings_flagFinalized]
    rfl
  have hfunction : ∀ id, c.heap.functions.get? id =
      if kept.has (.function id) then h.functions.get? id else none := fun id ↦ by
    rw [hheap, get?_sweep_functions, settle, functions_flagFinalized]
    rfl
  have htable : ∀ id, c.heap.tables.get? id =
      if kept.has (.table id) then (h.settle m due).tables.get? id else none := fun id ↦ by
    rw [hheap, get?_sweep_tables]
  have huserdata : ∀ id, c.heap.userdata.get? id =
      if kept.has (.userdata id) then (h.settle m due).userdata.get? id else none := fun id ↦ by
    rw [hheap, get?_sweep_userdata]
  refine ⟨fun r ↦ ?_, fun id hr ↦ ?_, fun id hr ↦ ?_, fun id t ht hw hr ↦ ?_,
    fun id t ht hr hw ↦ ?_, fun id u hu hr ↦ ?_, fun id hr hn ↦ ?_, fun id ↦ hdue ▸ hd id,
    hdue ▸ hnd⟩
  · rw [← hk r]
    cases r with
    | string id => rw [live, live, htext]; cases kept.has (.string id) <;> simp
    | table id =>
      rw [live, live, SlotStore.live, SlotStore.live, htable, get?_settle_tables]
      cases kept.has (.table id) <;> simp
    | function id =>
      rw [live, live, SlotStore.live, SlotStore.live, hfunction]
      cases kept.has (.function id) <;> simp
    | userdata id =>
      rw [live, live, SlotStore.live, SlotStore.live, huserdata, get?_settle_userdata]
      cases kept.has (.userdata id) <;> by_cases hid : id ∈ due <;> simp [hid]
  · rw [htext, if_pos ((hk _).2 hr)]
  · rw [hfunction, if_pos ((hk _).2 hr)]
  · rw [htable, if_pos ((hk _).2 hr.kept), get?_settle_tables, ht, Option.map_some,
      if_pos (by rw [hw, (hm _).2 hr]; rfl), filter_hasValue hm]
  · rw [htable, if_pos ((hk _).2 hr), get?_settle_tables, ht, Option.map_some, if_neg]
    rw [Bool.and_eq_true, hm]
    exact hw
  · have hkept : h.Kept roots (.userdata id) := .root (Or.inr ⟨id, rfl, hr⟩)
    rw [huserdata, if_pos ((hk _).2 hkept), get?_settle_userdata, if_pos ((hd id).2 hr), hu]
    rfl
  · rw [huserdata, if_pos ((hk _).2 hr), get?_settle_userdata, if_neg fun hid ↦ hn ((hd id).1 hid)]

/-- A cycle sweeps what its traces have not marked out of the heap that the clearing step has left. -/
theorem exists_of_collect {c : Collection} (hc : h.collect roots = .ok c) :
    ∃ m kept, (∀ r, m.has r = true ↔ h.Rooted roots r) ∧ (∀ r, kept.has r = true ↔ h.Kept roots r) ∧
      c.due = h.dueFinalizers m ∧ c.heap = (h.settle m c.due).sweep kept ∧
      c.removed = ((h.settle m c.due).deadUserdata kept).filterMap
        (h.settle m c.due).userdata.get? := by
  rw [collect] at hc
  cases hroots : h.trace (Marks.clear h) (roots.filterMap Value.ref?) with
  | error s => simp [hroots] at hc
  | ok m =>
    obtain ⟨hm, -⟩ := trace_roots hroots
    have hd := mem_dueFinalizers hm
    cases hstray : h.weakStray? m with
    | some s => simp [hroots, hstray] at hc
    | none =>
      cases hkept : (h.settle m (h.dueFinalizers m)).trace m
          ((h.dueFinalizers m).map Ref.userdata) with
      | error s =>
        rw [settle] at hkept
        simp [hroots, hstray, hkept] at hc
      | ok kept =>
        have hk := trace_due hm hd hkept
        rw [settle] at hkept
        simp only [hroots, hstray, hkept, Except.ok.injEq] at hc
        subst hc
        exact ⟨m, kept, hm, hk, rfl, rfl, rfl⟩

/-- A cycle that meets no stray reference collects exactly what cannot be reached. -/
theorem collects_of_collect {c : Collection} (hc : h.collect roots = .ok c) :
    h.Collects roots c := by
  obtain ⟨m, kept, hm, hk, hdue, hheap, -⟩ := exists_of_collect hc
  rw [hdue] at hheap
  exact collects_sweep hm (mem_dueFinalizers hm) hk hheap hdue (h.userdata.nodup_ids.filter _)

/-- A cycle that meets a stray reference has not changed the heap, or it has come to the clearing step
and the flags. -/
theorem exists_of_collect_error {i : Interruption} (hi : h.collect roots = .error i) :
    i.heap = h ∨ ∃ m bound ids, (∀ r, m.has r = true ↔ h.Rooted roots r) ∧
      i.heap = (h.clearWeak m bound).flagFinalized ids := by
  rw [collect] at hi
  cases hroots : h.trace (Marks.clear h) (roots.filterMap Value.ref?) with
  | error s =>
    simp only [hroots, Except.error.injEq] at hi
    exact .inl (hi ▸ rfl)
  | ok m =>
    obtain ⟨hm, -⟩ := trace_roots hroots
    simp only [hroots] at hi
    split at hi
    · obtain rfl := Except.error.inj hi
      exact .inr ⟨m, _, [], hm, rfl⟩
    · split at hi
      · obtain rfl := Except.error.inj hi
        exact .inr ⟨m, _, _, hm, rfl⟩
      · exact absurd hi (by simp)

/-! ### Cycles that meet no stray reference -/

/-- No weak table has a stray reference in a heap of numbered references. -/
theorem Numbered.weakStray?_eq_none (hn : h.Numbered roots)
    (hm : ∀ r, m.covers r = true ↔ h.Numbers r) : h.weakStray? m = none := by
  rw [weakStray?, List.findSome?_eq_none_iff]
  intro id _
  cases ht : h.tables.get? id with
  | none => rfl
  | some t =>
    have hs : m.strayValue? t = none := by
      rw [Marks.strayValue?, List.findSome?_eq_none_iff]
      intro v hv
      obtain ⟨e, he, rfl⟩ := List.mem_map.1 hv
      rw [Option.bind_eq_none_iff]
      intro r hr
      exact m.stray?_eq_none_iff.2 ((hm r).2 (hn.table_value id t ht e he r hr))
    simp [hs]

theorem Numbered.collect_ok (hn : h.Numbered roots) : ∃ c, h.collect roots = .ok c := by
  obtain ⟨m, hroots⟩ := trace_ok (h := h) (m := Marks.clear h)
    (fun r r' hl ↦ covers_clear.2 (hn.link r r' hl)) fun r hr ↦ by
      obtain ⟨v, hv, hr⟩ := List.mem_filterMap.1 hr
      exact covers_clear.2 (hn.root v hv r hr)
  obtain ⟨-, hc⟩ := trace_roots hroots
  have hstray := hn.weakStray?_eq_none hc
  obtain ⟨kept, hkept⟩ : ∃ kept, (h.settle m (h.dueFinalizers m)).trace m
      ((h.dueFinalizers m).map Ref.userdata) = .ok kept :=
    trace_ok (fun x y hl ↦ (hc y).2 (hn.link x y (links_settle_subset x hl))) fun r hr ↦ by
      obtain ⟨id, hid, rfl⟩ := List.mem_map.1 hr
      obtain ⟨u, hu⟩ := h.userdata.live_iff.1 (h.userdata.mem_ids.1 (List.mem_filter.1 hid).1)
      exact (hc _).2 (h.userdata.lt_capacity_of_get? hu)
  rw [settle] at hkept
  simp only [collect, hroots, hstray, hkept]
  exact ⟨_, rfl⟩

/-- **A cycle collects exactly what cannot be reached.** Whatever the shape of the heap, a cycle
over references within bounds succeeds; what it keeps is what can be reached from the roots and from
the userdata that are due, under the numbers it had; weak tables that the roots reach lose exactly
the entries whose values the roots do not reach, the userdata that are due are flagged and listed
once each, and everything else that is kept is as it was. -/
theorem collect_exact (hn : h.Numbered roots) :
    ∃ c, h.collect roots = .ok c ∧ h.Collects roots c := by
  obtain ⟨c, hc⟩ := hn.collect_ok
  exact ⟨c, hc, collects_of_collect hc⟩

/-- A weak table that holds a userdata with a finalizer, which nothing else refers to. -/
def lastReference : Heap where
  strings := ({} : StringPool).intern "__gc" |>.2
  tables := ⟨#[
    some { entries := .ofList [(.integer 1, .userdata 0)], weakValues := true },
    some { entries := .ofList [(.string 0, .boolean true)] }], [], 2⟩
  userdata := ⟨#[some { content := .foreign 7, metatable := some 1 }], [], 1⟩

theorem numbered_lastReference : lastReference.Numbered [.table 0] := by
  have htable : ∀ id t, lastReference.tables.get? id = some t →
      t.metatable = none ∧ (t.entries.toList = [(.integer 1, .userdata 0)] ∨
        t.entries.toList = [(.string 0, .boolean true)]) := by
    intro id t ht
    have hid : id < 2 := lastReference.tables.lt_capacity_of_get? ht
    interval_cases id <;> obtain rfl := Option.some.inj ht
    · exact ⟨rfl, Or.inl rfl⟩
    · exact ⟨rfl, Or.inr rfl⟩
  have huserdata : ∀ id u, lastReference.userdata.get? id = some u →
      u.metatable = some 1 ∧ u.userValue = .nil := by
    intro id u hu
    have hid : id < 1 := lastReference.userdata.lt_capacity_of_get? hu
    interval_cases id
    obtain rfl := Option.some.inj hu
    exact ⟨rfl, rfl⟩
  have hstring : lastReference.Numbers (.string 0) := Nat.zero_lt_one
  have hmeta : lastReference.Numbers (.table 1) := Nat.one_lt_two
  have huser : lastReference.Numbers (.userdata 0) := Nat.zero_lt_one
  have hroot : lastReference.Numbers (.table 0) := Nat.zero_lt_two
  refine ⟨?_, fun id t ht ↦ ?_, fun id t ht ↦ ?_, fun id t ht ↦ ?_, fun id u hu ↦ ?_,
    fun id u hu ↦ ?_⟩
  · simpa [Value.ref?] using hroot
  · simp [(htable id t ht).1]
  · rcases (htable id t ht).2 with h | h <;> simp [h, Key.ref?, hstring]
  · rcases (htable id t ht).2 with h | h <;> simp [h, Value.ref?, huser]
  · simp [(huserdata id u hu).1, hmeta]
  · simp [(huserdata id u hu).2, Value.ref?]

theorem collect_exact_lastReference :
    lastReference.Numbered [.table 0] ∧
      ∃ c, lastReference.collect [.table 0] = .ok c ∧ lastReference.Collects [.table 0] c :=
  ⟨numbered_lastReference, collect_exact numbered_lastReference⟩

example : (lastReference.collect [.table 0]).toOption.map (·.due) = some [0] := by
  decide +kernel

end Heap

end ObjectBridge
