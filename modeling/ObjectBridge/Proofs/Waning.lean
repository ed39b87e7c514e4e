import ObjectBridge.Proofs.Thinning

/-!
# Heaps that lose things

A cycle of the collector, a finalizer of the bridge, and the release of references have one thing in
common: they put nothing into the heap. `Heap.Wanes h h'` says so of whatever may have happened to
`h` meanwhile. Every object of `h'` is one of `h`, with the links it had or fewer, so what can be
reached in `h'` could be reached in `h` (`Heap.Wanes.rooted`), and no reference of `h'` strays if none
of `h` does (`Heap.Wanes.numbered`).

For a cycle the other direction fails in one place only. A table with weak values keeps the keys of its
entries alive, and in losing an entry it loses the key as well. What the roots reach without such keys
(`Heap.Firm`) stays in reach (`Heap.Collects.firm`), and after a cycle without finalizers whatever could
be reached before can be reached, if not from the roots then from keys that have gone
(`Heap.Collects.reaches_or_shed`).
-/

namespace ObjectBridge

/-! ### Tables -/

/-- A table that has lost entries, if anything. -/
structure Table.Wanes (t t' : Table) : Prop where
  metatable : t'.metatable = t.metatable
  weakValues : t'.weakValues = t.weakValues
  old : ∀ {k v}, t'.entries.find? k = some v → t.entries.find? k = some v

namespace Table.Wanes

variable {t t' t'' : Table}

theorem refl (t : Table) : t.Wanes t :=
  ⟨rfl, rfl, fun h ↦ h⟩

theorem trans (h : t.Wanes t') (h' : t'.Wanes t'') : t.Wanes t'' :=
  ⟨h'.metatable.trans h.metatable, h'.weakValues.trans h.weakValues, fun hk ↦ h.old (h'.old hk)⟩

theorem unreference (t : Table) (r : Int) : t.Wanes (t.unreference r) := by
  rw [Table.unreference]
  split
  · refine ⟨rfl, rfl, fun {k v} h ↦ ?_⟩
    have herased : (if k = .integer r then none else t.entries.find? k) = some v :=
      (t.entries.find?_erase _ k).symm.trans h
    split at herased
    · exact absurd herased (by simp)
    · exact herased
  · exact refl t

/-- Its links are links that the table had. -/
theorem links_subset (h : t.Wanes t') : t'.links ⊆ t.links := by
  intro r hr
  rw [Table.links, List.mem_append, List.mem_flatMap] at hr ⊢
  rw [h.metatable] at hr
  refine hr.imp_right ?_
  rintro ⟨⟨k, v⟩, hentry, hlink⟩
  refine ⟨(k, v), (t.entries.mem_toList_iff k v).2 (h.old ((t'.entries.mem_toList_iff k v).1 hentry)), ?_⟩
  rwa [Table.entryLinks, Table.holds, h.weakValues] at hlink

end Table.Wanes

/-- **A link to what is alive** is one of what pruning leaves of a table, or comes from the key of an
entry that pruning takes. -/
theorem Table.mem_links_prune_or (t : Table) {alive : Ref → Prop} {r : Ref} (hr : r ∈ t.links)
    (halive : alive r) : r ∈ (t.prune alive).links ∨ ∃ k v, t.entries.find? k = some v ∧
      (t.prune alive).entries.find? k = none ∧ k.ref? = some r := by
  rw [links, List.mem_append, List.mem_flatMap] at hr
  rcases hr with hr | ⟨⟨k, v⟩, hentry, hr⟩
  · exact .inl (List.mem_append_left _ hr)
  rw [t.entries.mem_toList_iff] at hentry
  cases hk : (t.prune alive).entries.find? k with
  | some v' =>
    -- The entry is one that the table has kept.
    obtain rfl := Option.some.inj (hentry.symm.trans ((t.find?_prune _ k v').1 hk).1)
    exact .inl (List.mem_append_right _ (List.mem_flatMap.2
      ⟨(k, v), (Dict.mem_toList_iff _ k v).2 hk, hr⟩))
  | none =>
    rw [entryLinks, List.mem_append, Option.mem_toList] at hr
    rcases hr with hr | hr
    · exact .inr ⟨k, v, hentry, hk, hr⟩
    · -- The value is alive, and so the table has kept its entry.
      split at hr
      · rw [Option.mem_toList] at hr
        have hkept : v.KeptBy alive := fun x hx ↦ by rwa [← Option.some.inj (hr.symm.trans hx)]
        exact absurd (hk.symm.trans ((t.find?_prune _ k v).2 ⟨hentry, hkept⟩)) (by simp)
      · exact absurd hr List.not_mem_nil

/-! ### Heaps -/

namespace Heap

/-- **A heap into which nothing has been put**: whatever is there was there before, and a table has at
most the entries it had. -/
structure Wanes (h h' : Heap) : Prop where
  lookup : ∀ {s id}, h'.strings.lookup s = some id → h.strings.lookup s = some id
  table : ∀ {id t'}, h'.tables.get? id = some t' → ∃ t, h.tables.get? id = some t ∧ t.Wanes t'
  function : ∀ {id f}, h'.functions.get? id = some f → h.functions.get? id = some f
  userdata : ∀ {id u'}, h'.userdata.get? id = some u' → ∃ u, h.userdata.get? id = some u ∧
    u'.metatable = u.metatable ∧ u'.userValue = u.userValue
  numbers : ∀ r, h'.Numbers r ↔ h.Numbers r

variable {h h' h'' : Heap} {roots roots' : List Value}

namespace Wanes

theorem refl (h : Heap) : h.Wanes h :=
  ⟨fun h ↦ h, fun {_ t} ht ↦ ⟨t, ht, .refl t⟩, fun h ↦ h, fun {_ u} hu ↦ ⟨u, hu, rfl, rfl⟩,
    fun _ ↦ Iff.rfl⟩

theorem trans (hw : h.Wanes h') (hw' : h'.Wanes h'') : h.Wanes h'' where
  lookup hs := hw.lookup (hw'.lookup hs)
  table ht'' := by
    obtain ⟨t', ht', hwanes'⟩ := hw'.table ht''
    obtain ⟨t, ht, hwanes⟩ := hw.table ht'
    exact ⟨t, ht, hwanes.trans hwanes'⟩
  function hf := hw.function (hw'.function hf)
  userdata hu'' := by
    obtain ⟨u', hu', hmetatable', hvalue'⟩ := hw'.userdata hu''
    obtain ⟨u, hu, hmetatable, hvalue⟩ := hw.userdata hu'
    exact ⟨u, hu, hmetatable'.trans hmetatable, hvalue'.trans hvalue⟩
  numbers r := (hw'.numbers r).trans (hw.numbers r)

/-- One table loses entries. -/
theorem modifyTable (h : Heap) (id : Nat) {f : Table → Table} (hf : ∀ t : Table, t.Wanes (f t)) :
    h.Wanes (h.modifyTable id f) where
  lookup hs := hs
  table {id' t'} ht' := by
    have hget : (if id = id' then (h.tables.get? id').map f else h.tables.get? id') = some t' :=
      (h.tables.get?_modify id id' f).symm.trans ht'
    split at hget
    · obtain ⟨t, ht, rfl⟩ := Option.map_eq_some_iff.1 hget
      exact ⟨t, ht, hf t⟩
    · exact ⟨t', hget, .refl t'⟩
  function hf := hf
  userdata {_ u} hu := ⟨u, hu, rfl, rfl⟩
  numbers r := by
    cases r with
    | table => exact iff_of_eq (congrArg (_ < ·) (h.tables.capacity_modify id f))
    | string | function | userdata => exact Iff.rfl

/-- What one userdata carries changes. -/
theorem modifyUserdata (h : Heap) (id : Nat) {f : Userdata → Userdata}
    (hf : ∀ u, (f u).metatable = u.metatable ∧ (f u).userValue = u.userValue) :
    h.Wanes (h.modifyUserdata id f) where
  lookup hs := hs
  table {_ t} ht := ⟨t, ht, .refl t⟩
  function hf := hf
  userdata {id' u'} hu' := by
    have hget : (if id = id' then (h.userdata.get? id').map f else h.userdata.get? id') = some u' :=
      (h.userdata.get?_modify id id' f).symm.trans hu'
    split at hget
    · obtain ⟨u, hu, rfl⟩ := Option.map_eq_some_iff.1 hget
      exact ⟨u, hu, hf u⟩
    · exact ⟨u', hget, rfl, rfl⟩
  numbers r := by
    cases r with
    | userdata => exact iff_of_eq (congrArg (_ < ·) (h.userdata.capacity_modify id f))
    | string | function | table => exact Iff.rfl

theorem links_subset (hw : h.Wanes h') (r : Ref) : h'.links r ⊆ h.links r := by
  intro r' hr'
  cases r with
  | string | function => exact absurd hr' List.not_mem_nil
  | table id =>
    rw [links] at hr' ⊢
    cases ht' : h'.tables.get? id with
    | none =>
      rw [ht'] at hr'
      exact absurd hr' List.not_mem_nil
    | some t' =>
      obtain ⟨t, ht, hwanes⟩ := hw.table ht'
      rw [ht'] at hr'
      rw [ht]
      exact hwanes.links_subset hr'
  | userdata id =>
    rw [links] at hr' ⊢
    cases hu' : h'.userdata.get? id with
    | none =>
      rw [hu'] at hr'
      exact absurd hr' List.not_mem_nil
    | some u' =>
      obtain ⟨u, hu, hmetatable, hvalue⟩ := hw.userdata hu'
      rw [hu'] at hr'
      rw [hu]
      have hlinks : u'.links = u.links := by rw [Userdata.links, hmetatable, hvalue, Userdata.links]
      show r' ∈ u.links
      rwa [← hlinks]

/-- **What can be reached could be reached before.** -/
theorem rooted (hw : h.Wanes h') (hroots : ∀ v ∈ roots', v ∈ roots) {r : Ref}
    (hr : h'.Rooted roots' r) : h.Rooted roots r := by
  refine hr.mem_of_closed (s := {r | h.Rooted roots r})
    (fun r hr r' hl ↦ .link hr (hw.links_subset r hl)) fun r hr ↦ ?_
  obtain ⟨v, hv, href⟩ := List.mem_filterMap.1 hr
  exact .root (List.mem_filterMap.2 ⟨v, hroots v hv, href⟩)

/-- **No reference strays if none did.** -/
theorem numbered (hw : h.Wanes h') (hroots : ∀ v ∈ roots', v ∈ roots) (hn : h.Numbered roots) :
    h'.Numbered roots' where
  root v hv r hr := (hw.numbers r).2 (hn.root v (hroots v hv) r hr)
  table_metatable id t' ht' mt hmt := by
    obtain ⟨t, ht, hwanes⟩ := hw.table ht'
    exact (hw.numbers _).2 (hn.table_metatable id t ht mt (hwanes.metatable ▸ hmt))
  table_key id t' ht' e he r hr := by
    obtain ⟨t, ht, hwanes⟩ := hw.table ht'
    have hold := hwanes.old ((t'.entries.mem_toList_iff e.1 e.2).1 he)
    exact (hw.numbers r).2 (hn.table_key id t ht e ((t.entries.mem_toList_iff e.1 e.2).2 hold) r hr)
  table_value id t' ht' e he r hr := by
    obtain ⟨t, ht, hwanes⟩ := hw.table ht'
    have hold := hwanes.old ((t'.entries.mem_toList_iff e.1 e.2).1 he)
    exact (hw.numbers r).2 (hn.table_value id t ht e ((t.entries.mem_toList_iff e.1 e.2).2 hold) r hr)
  userdata_metatable id u' hu' mt hmt := by
    obtain ⟨u, hu, hmetatable, -⟩ := hw.userdata hu'
    exact (hw.numbers _).2 (hn.userdata_metatable id u hu mt (hmetatable ▸ hmt))
  userdata_value id u' hu' r hr := by
    obtain ⟨u, hu, -, hvalue⟩ := hw.userdata hu'
    exact (hw.numbers r).2 (hn.userdata_value id u hu r (hvalue ▸ hr))

end Wanes

end Heap

/-! ### Cycles of the collector -/

namespace SlotStore

universe u

variable {α : Type u}

theorem capacity_foldl_erase (s : SlotStore α) (ids : List Nat) :
    (ids.foldl erase s).capacity = s.capacity := by
  induction ids generalizing s with
  | nil => rfl
  | cons i ids ih => exact (ih _).trans (s.capacity_erase i)

end SlotStore

namespace StringPool

theorem lookup_erase {p : StringPool} {i id : Nat} {s : String}
    (h : (p.erase i).lookup s = some id) : p.lookup s = some id := by
  rw [erase] at h
  split at h
  · rename_i text _
    have herased : (if s = text then none else p.index.find? s) = some id :=
      (p.index.find?_erase text s).symm.trans h
    split at herased
    · exact absurd herased (by simp)
    · exact herased
  · exact h

theorem lookup_foldl_erase {p : StringPool} {ids : List Nat} {id : Nat} {s : String}
    (h : (ids.foldl erase p).lookup s = some id) : p.lookup s = some id := by
  induction ids generalizing p with
  | nil => exact h
  | cons i ids ih => exact lookup_erase (ih h)

theorem capacity_foldl_erase (p : StringPool) (ids : List Nat) :
    (ids.foldl erase p).texts.capacity = p.texts.capacity := by
  induction ids generalizing p with
  | nil => rfl
  | cons i ids ih =>
    refine (ih _).trans ?_
    rw [erase]
    split
    · exact p.texts.capacity_foldl_erase [i]
    · rfl

end StringPool

namespace Heap

variable {h : Heap} {roots : List Value} {c : Collection}

theorem capacity_flagFinalized (h : Heap) (ids : List Nat) :
    (h.flagFinalized ids).userdata.capacity = h.userdata.capacity := by
  induction ids generalizing h with
  | nil => rfl
  | cons id ids ih => exact (ih _).trans (h.userdata.capacity_modify id _)

/-- **A cycle puts nothing into the heap.** -/
theorem wanes_of_collect (hc : h.collect roots = .ok c) : h.Wanes c.heap := by
  obtain ⟨m, kept, -, -, -, hheap, -⟩ := exists_of_collect hc
  -- What is there after the sweep was there after the clearing step.
  have hswept : ∀ {b : Bool} {α : Type} {x : Option α} {y : α}, (if b then x else none) = some y →
      x = some y := fun {b _ _ _} hy ↦ by
    cases b with
    | true => exact hy
    | false => exact absurd hy (by simp)
  rw [hheap]
  refine ⟨fun hs ↦ ?_, fun {id t'} ht' ↦ ?_, fun {id f} hf ↦ ?_, fun {id u'} hu' ↦ ?_, fun r ↦ ?_⟩
  · have hs' := StringPool.lookup_foldl_erase hs
    rwa [settle, strings_flagFinalized] at hs'
  · have hsettled := hswept ((get?_sweep_tables id).symm.trans ht')
    rw [get?_settle_tables] at hsettled
    obtain ⟨t, ht, rfl⟩ := Option.map_eq_some_iff.1 hsettled
    refine ⟨t, ht, ?_⟩
    split
    · refine ⟨rfl, rfl, fun {k v} hk ↦ ?_⟩
      rw [Dict.find?_filter, Option.filter_eq_some_iff] at hk
      exact hk.1
    · exact .refl t
  · have hsettled := hswept ((get?_sweep_functions id).symm.trans hf)
    rwa [settle, functions_flagFinalized] at hsettled
  · have hsettled := hswept ((get?_sweep_userdata id).symm.trans hu')
    rw [get?_settle_userdata] at hsettled
    split at hsettled
    · obtain ⟨u, hu, rfl⟩ := Option.map_eq_some_iff.1 hsettled
      exact ⟨u, hu, rfl, rfl⟩
    · exact ⟨u', hsettled, rfl, rfl⟩
  · cases r with
    | string id =>
      refine iff_of_eq (congrArg (id < ·) ((StringPool.capacity_foldl_erase _ _).trans ?_))
      rw [settle, strings_flagFinalized]
      rfl
    | table id =>
      refine iff_of_eq (congrArg (id < ·) ((SlotStore.capacity_foldl_erase _ _).trans ?_))
      rw [settle, tables_flagFinalized]
      exact SlotStore.capacity_mapValues _ _
    | function id =>
      refine iff_of_eq (congrArg (id < ·) ((SlotStore.capacity_foldl_erase _ _).trans ?_))
      rw [settle, functions_flagFinalized]
      rfl
    | userdata id =>
      refine iff_of_eq (congrArg (id < ·) ((SlotStore.capacity_foldl_erase _ _).trans ?_))
      exact capacity_flagFinalized _ _

/-! ### What a cycle takes out of reach -/

/-- The key of an entry that a table with weak values has lost. -/
def Shed (h h' : Heap) (r : Ref) : Prop :=
  ∃ id t t' k v, h.tables.get? id = some t ∧ t.weakValues = true ∧ t.entries.find? k = some v ∧
    h'.tables.get? id = some t' ∧ t'.entries.find? k = none ∧ k.ref? = some r

theorem Wanes.shed {h' h'' : Heap} (hw : h.Wanes h') {r : Ref} (hs : h'.Shed h'' r) :
    h.Shed h'' r := by
  obtain ⟨id, t', t'', k, v, ht', hweak, hk, hrest⟩ := hs
  obtain ⟨t, ht, hwanes⟩ := hw.table ht'
  exact ⟨id, t, t'', k, v, ht, hwanes.weakValues ▸ hweak, hwanes.old hk, hrest⟩

/-- **What could be reached can be reached**, or it could be reached through keys only that have gone
with their entries; this is a cycle that has nothing finalized. -/
theorem Collects.reaches_or_shed (hc : h.Collects roots c) (hnone : c.due = []) {r : Ref}
    (hr : h.Rooted roots r) :
    c.heap.Reaches {r | r ∈ roots.filterMap Value.ref? ∨ h.Shed c.heap r} r := by
  have hdue (id : Nat) : ¬ h.Due roots id := fun hid ↦ by
    have hmem := (hc.mem_due_iff id).2 hid
    rw [hnone] at hmem
    exact absurd hmem List.not_mem_nil
  induction hr with
  | root hm => exact .root (Or.inl hm)
  | @link r r' hr hl ih =>
    cases r with
    | string | function => exact absurd hl List.not_mem_nil
    | userdata id =>
      refine .link ih ?_
      rw [links, hc.userdata id (Rooted.kept hr) (hdue id)]
      exact hl
    | table id =>
      have hrooted : h.Rooted roots r' := .link hr hl
      rw [links] at hl
      cases ht : h.tables.get? id with
      | none =>
        rw [ht] at hl
        exact absurd hl List.not_mem_nil
      | some t =>
        rw [ht] at hl
        cases hweak : t.weakValues with
        | false =>
          refine .link ih ?_
          rw [links, hc.table id t ht (Rooted.kept hr) fun h ↦ by simp [hweak] at h]
          exact hl
        | true =>
          have hpruned := hc.table_pruned id t ht hweak hr
          rcases t.mem_links_prune_or hl hrooted with hkept | ⟨k, v, hentry, hgone, hk⟩
          · exact .link ih (by rw [links, hpruned]; exact hkept)
          · exact .root (Or.inr ⟨id, t, _, k, v, ht, hweak, hentry, hpruned, hgone, hk⟩)

/-! ### What a cycle leaves in reach -/

/-- The links that no cycle takes away: a table with weak values loses keys, and so has none but that
to its metatable. -/
def firmLinks (h : Heap) : Ref → List Ref
  | .table id =>
    match h.tables.get? id with
    | some t => if t.weakValues then (t.metatable.map Ref.table).toList else t.links
    | none => []
  | r => h.links r

/-- What the roots reach other than through a key of a table with weak values. -/
inductive Firm (h : Heap) (roots : List Value) : Ref → Prop
  | root {r : Ref} (hr : r ∈ roots.filterMap Value.ref?) : Firm h roots r
  | link {r r' : Ref} (hr : Firm h roots r) (hl : r' ∈ h.firmLinks r) : Firm h roots r'

theorem firmLinks_subset (h : Heap) (r : Ref) : h.firmLinks r ⊆ h.links r := by
  cases r with
  | string | function | userdata => exact List.Subset.refl _
  | table id =>
    rw [firmLinks, links]
    cases h.tables.get? id with
    | none => exact List.Subset.refl _
    | some t =>
      dsimp only
      split
      · exact fun _ hl ↦ List.mem_append_left _ hl
      · exact List.Subset.refl _

theorem Firm.rooted {r : Ref} (hr : h.Firm roots r) : h.Rooted roots r := by
  induction hr with
  | root hr => exact .root hr
  | link _ hl ih => exact .link ih (h.firmLinks_subset _ hl)

/-- What is reached by links that stay is reached by them afterwards. -/
theorem Firm.mono {h' : Heap} (hlinks : ∀ {r}, h.Firm roots r → h.firmLinks r ⊆ h'.firmLinks r)
    {r : Ref} (hr : h.Firm roots r) : h'.Firm roots r := by
  induction hr with
  | root hr => exact .root hr
  | link hr hl ih => exact .link ih (hlinks hr hl)

theorem firmLinks_modifyTable (h : Heap) (id : Nat) {f : Table → Table}
    (hf : ∀ t, h.tables.get? id = some t → t.weakValues = true ∧ (f t).weakValues = true ∧
      (f t).metatable = t.metatable) (r : Ref) : (h.modifyTable id f).firmLinks r = h.firmLinks r := by
  cases r with
  | string | function | userdata => rfl
  | table id' =>
    rw [firmLinks, firmLinks, modifyTable, SlotStore.get?_modify]
    by_cases hid : id = id'
    · subst hid
      rw [if_pos rfl]
      cases ht : h.tables.get? id with
      | none => rfl
      | some t =>
        obtain ⟨hweak, hweak', hmetatable⟩ := hf t ht
        simp only [Option.map_some, hweak, hweak', hmetatable, if_true]
    · rw [if_neg hid]

theorem firmLinks_modifyUserdata (h : Heap) (id : Nat) {f : Userdata → Userdata}
    (hf : ∀ u, (f u).metatable = u.metatable ∧ (f u).userValue = u.userValue) (r : Ref) :
    (h.modifyUserdata id f).firmLinks r = h.firmLinks r := by
  cases r with
  | string | function | table => rfl
  | userdata id' =>
    show (h.modifyUserdata id f).links (.userdata id') = h.links (.userdata id')
    rw [links, links, modifyUserdata, SlotStore.get?_modify]
    by_cases hid : id = id'
    · rw [if_pos hid]
      cases h.userdata.get? id' with
      | none => rfl
      | some u =>
        obtain ⟨hmetatable, hvalue⟩ := hf u
        show (f u).links = u.links
        rw [Userdata.links, hmetatable, hvalue, Userdata.links]
    · rw [if_neg hid]

/-- **A cycle leaves in reach what the roots reach other than through keys of tables with weak
values.** -/
theorem Collects.firm (hc : h.Collects roots c) {r : Ref} (hr : h.Firm roots r) :
    c.heap.Firm roots r := by
  refine hr.mono fun {r} hr ↦ ?_
  have hrooted := hr.rooted
  cases r with
  | string | function => exact List.Subset.refl _
  | userdata id =>
    show h.links (.userdata id) ⊆ c.heap.links (.userdata id)
    rw [links, links, hc.userdata id (Rooted.kept hrooted) fun hdue ↦ hdue.unreached hrooted]
    exact List.Subset.refl _
  | table id =>
    rw [firmLinks, firmLinks]
    cases ht : h.tables.get? id with
    | none => exact List.nil_subset _
    | some t =>
      cases hweak : t.weakValues with
      | true =>
        rw [hc.table_pruned id t ht hweak hrooted]
        dsimp only
        rw [if_pos hweak, if_pos (show (t.prune (h.Rooted roots)).weakValues = true from hweak)]
        exact List.Subset.refl _
      | false =>
        rw [hc.table id t ht (Rooted.kept hrooted) fun h ↦ by simp [hweak] at h]
        exact List.Subset.refl _

end Heap

end ObjectBridge
