import ObjectBridge.Proofs.Collection

/-!
# References that dangle

A heap is intact if all that its objects and its roots refer to is there. A cycle of the collector
removes objects, and so it has to see to it that nothing that it leaves refers to them. Links are safe:
what is kept is closed under them. The values of weak tables are no links, and a cycle takes those that
it will not keep out of the tables that the roots reach.

Tables that only userdata with due finalizers reach are passed over: they are found when the values
have been taken out already (`Heap.Belated`). What `Heap.intact_collect_iff` says is that nothing else
goes wrong: a cycle over an intact heap leaves it intact just if all values of these tables are kept,
and references that dangle afterwards are in these tables.
-/

namespace ObjectBridge

/-- All that a table refers to, values of weak tables included. -/
def Table.mentions (t : Table) : List Ref :=
  (t.metatable.map Ref.table).toList ++
    t.entries.toList.flatMap fun e ↦ e.1.ref?.toList ++ e.2.ref?.toList

namespace Table

theorem mem_mentions {t : Table} {r : Ref} : r ∈ t.mentions ↔
    (∃ mt, t.metatable = some mt ∧ r = .table mt) ∨
      ∃ e ∈ t.entries.toList, e.1.ref? = some r ∨ e.2.ref? = some r := by
  rw [mentions, List.mem_append, Option.mem_toList, Option.map_eq_some_iff, List.mem_flatMap]
  simp only [List.mem_append, Option.mem_toList, eq_comm]

/-- All references of a table without weak values are links. -/
theorem mentions_eq_links {t : Table} (h : t.weakValues = false) : t.mentions = t.links := by
  have hlinks : t.entryLinks = fun e ↦ e.1.ref?.toList ++ e.2.ref?.toList := by
    funext e
    simp [entryLinks, holds, h]
  rw [links, hlinks, mentions]

/-- Metatables and keys are links. -/
theorem mem_links_of_metatable {t : Table} {mt : Nat} (h : t.metatable = some mt) :
    .table mt ∈ t.links :=
  List.mem_append_left _ (by simp [h])

theorem mem_links_of_key {t : Table} {e : Key × Value} (he : e ∈ t.entries.toList) {r : Ref}
    (hr : e.1.ref? = some r) : r ∈ t.links :=
  List.mem_append_right _ (List.mem_flatMap.2
    ⟨e, he, List.mem_append_left _ (Option.mem_toList.2 hr)⟩)

open scoped Classical in
/-- What a pruned table refers to is a link of the table, or alive. -/
theorem mem_mentions_prune {t : Table} {alive : Ref → Prop} {r : Ref}
    (h : r ∈ (t.prune alive).mentions) : r ∈ t.mentions ∧ (r ∈ t.links ∨ alive r) := by
  rcases mem_mentions.1 h with ⟨mt, hmt, rfl⟩ | ⟨e, he, hr⟩
  · exact ⟨mem_mentions.2 (.inl ⟨mt, hmt, rfl⟩), .inl (mem_links_of_metatable hmt)⟩
  · obtain ⟨he, hkept⟩ := List.mem_filter.1 he
    refine ⟨mem_mentions.2 (.inr ⟨e, he, hr⟩), ?_⟩
    rcases hr with hr | hr
    · exact .inl (mem_links_of_key he hr)
    · exact .inr (of_decide_eq_true hkept r hr)

end Table

namespace Heap

variable {h : Heap} {roots : List Value}

/-- All that an object refers to. -/
def mentions (h : Heap) : Ref → List Ref
  | .table id =>
    match h.tables.get? id with
    | some t => t.mentions
    | none => []
  | .userdata id => h.links (.userdata id)
  | _ => []

/-- The objects that can refer to others. -/
def holders (h : Heap) : List Ref :=
  h.tables.ids.map Ref.table ++ h.userdata.ids.map Ref.userdata

/-- **No reference dangles**: all that the roots and the objects refer to is there. -/
def Intact (h : Heap) (roots : List Value) : Prop :=
  (∀ r ∈ roots.filterMap Value.ref?, h.live r = true) ∧
    ∀ r ∈ h.holders, ∀ r' ∈ h.mentions r, h.live r' = true

instance : Decidable (h.Intact roots) :=
  inferInstanceAs (Decidable (_ ∧ _))

theorem mentions_table {id : Nat} {t : Table} (ht : h.tables.get? id = some t) :
    h.mentions (.table id) = t.mentions := by
  rw [mentions, ht]

/-- An object that refers to others is there. -/
theorem exists_of_mem_mentions {r r' : Ref} (hr : r' ∈ h.mentions r) :
    (∃ id t, r = .table id ∧ h.tables.get? id = some t ∧ r' ∈ t.mentions) ∨
      ∃ id u, r = .userdata id ∧ h.userdata.get? id = some u ∧ r' ∈ u.links := by
  cases r with
  | string | function => exact absurd hr List.not_mem_nil
  | table id =>
    rw [mentions] at hr
    cases ht : h.tables.get? id with
    | none => simp [ht] at hr
    | some t => exact .inl ⟨id, t, rfl, ht, by simpa [ht] using hr⟩
  | userdata id =>
    rw [mentions, links] at hr
    cases hu : h.userdata.get? id with
    | none => simp [hu] at hr
    | some u => exact .inr ⟨id, u, rfl, hu, by simpa [hu] using hr⟩

theorem mem_holders_of_mem_mentions {r r' : Ref} (hr : r' ∈ h.mentions r) : r ∈ h.holders := by
  rcases exists_of_mem_mentions hr with ⟨id, t, rfl, ht, -⟩ | ⟨id, u, rfl, hu, -⟩
  · exact List.mem_append_left _ (List.mem_map_of_mem
      (h.tables.mem_ids.2 (h.tables.live_iff.2 ⟨t, ht⟩)))
  · exact List.mem_append_right _ (List.mem_map_of_mem
      (h.userdata.mem_ids.2 (h.userdata.live_iff.2 ⟨u, hu⟩)))

theorem intact_iff : h.Intact roots ↔ (∀ v ∈ roots, ∀ r, v.ref? = some r → h.live r = true) ∧
    ∀ r, ∀ r' ∈ h.mentions r, h.live r' = true := by
  refine and_congr ⟨fun hr v hv r h ↦ hr r (List.mem_filterMap.2 ⟨v, hv, h⟩), fun hr r h ↦ ?_⟩
    ⟨fun hr r r' h ↦ hr r (mem_holders_of_mem_mentions h) r' h, fun hr r _ r' h ↦ hr r r' h⟩
  obtain ⟨v, hv, h⟩ := List.mem_filterMap.1 h
  exact hr v hv r h

/-! ### Intact heaps are numbered -/

theorem numbers_of_live {r : Ref} (hr : h.live r = true) : h.Numbers r := by
  cases r with
  | string id =>
    obtain ⟨s, hs⟩ := Option.isSome_iff_exists.1 hr
    exact h.strings.texts.lt_capacity_of_get? hs
  | table id =>
    obtain ⟨t, ht⟩ := h.tables.live_iff.1 hr
    exact h.tables.lt_capacity_of_get? ht
  | function id =>
    obtain ⟨f, hf⟩ := h.functions.live_iff.1 hr
    exact h.functions.lt_capacity_of_get? hf
  | userdata id =>
    obtain ⟨u, hu⟩ := h.userdata.live_iff.1 hr
    exact h.userdata.lt_capacity_of_get? hu

theorem Intact.numbered (hi : h.Intact roots) : h.Numbered roots := by
  obtain ⟨hroots, hmentions⟩ := intact_iff.1 hi
  have htable {id : Nat} {t : Table} (ht : h.tables.get? id = some t) {r : Ref}
      (hr : r ∈ t.mentions) : h.Numbers r :=
    numbers_of_live (hmentions (.table id) r (by rwa [mentions_table ht]))
  have huserdata {id : Nat} {u : Userdata} (hu : h.userdata.get? id = some u) {r : Ref}
      (hr : r ∈ u.links) : h.Numbers r :=
    numbers_of_live (hmentions (.userdata id) r (by rwa [mentions, links, hu]))
  exact {
    root := fun v hv r hr ↦ numbers_of_live (hroots v hv r hr)
    table_metatable := fun id t ht mt hmt ↦ htable ht (Table.mem_mentions.2 (.inl ⟨mt, hmt, rfl⟩))
    table_key := fun id t ht e he r hr ↦ htable ht (Table.mem_mentions.2 (.inr ⟨e, he, .inl hr⟩))
    table_value := fun id t ht e he r hr ↦ htable ht (Table.mem_mentions.2 (.inr ⟨e, he, .inr hr⟩))
    userdata_metatable := fun id u hu mt hmt ↦
      huserdata hu (List.mem_append_left _ (by simp [hmt]))
    userdata_value := fun id u hu r hr ↦ huserdata hu (List.mem_append_right _ (by simp [hr])) }

/-! ### What dangles after a cycle -/

/-- A table with weak values that is kept for the sake of userdata with due finalizers alone. -/
structure Belated (h : Heap) (roots : List Value) (id : Nat) : Prop where
  weak : ∃ t, h.tables.get? id = some t ∧ t.weakValues = true
  kept : h.Kept roots (.table id)
  unreached : ¬ h.Rooted roots (.table id)

theorem Kept.link {r r' : Ref} (hr : h.Kept roots r) (hl : r' ∈ h.links r) : h.Kept roots r' :=
  Reaches.link hr hl

variable {c : Collection}

/-- An object that is left refers to nothing that it did not refer to before, and all of it is kept
unless the object is a belated table. -/
theorem Collects.mentions (hc : h.Collects roots c) {r r' : Ref} (hr : r' ∈ c.heap.mentions r) :
    r' ∈ h.mentions r ∧ (h.Kept roots r' ∨ ∃ id, r = .table id ∧ h.Belated roots id) := by
  rcases exists_of_mem_mentions hr with ⟨id, t', rfl, ht', hm⟩ | ⟨id, u', rfl, hu', hm⟩
  · obtain ⟨hlive, hkept⟩ := (hc.live_iff (.table id)).1 (c.heap.tables.live_iff.2 ⟨t', ht'⟩)
    obtain ⟨t, ht⟩ := h.tables.live_iff.1 hlive
    have hlink {x : Ref} (hx : x ∈ t.links) : h.Kept roots x :=
      hkept.link (by rwa [links, ht])
    rw [mentions_table ht]
    -- Only tables that the roots reach have been cleared; any other table is as it was.
    by_cases hpruned : t.weakValues = true ∧ h.Rooted roots (.table id)
    · obtain rfl := Option.some.inj (ht'.symm.trans (hc.table_pruned id t ht hpruned.1 hpruned.2))
      obtain ⟨hm, hl | hl⟩ := Table.mem_mentions_prune hm
      · exact ⟨hm, .inl (hlink hl)⟩
      · exact ⟨hm, .inl hl.kept⟩
    · obtain rfl := Option.some.inj (ht'.symm.trans (hc.table id t ht hkept hpruned))
      refine ⟨hm, ?_⟩
      cases hweak : t'.weakValues with
      | false => exact .inl (hlink (Table.mentions_eq_links hweak ▸ hm))
      | true => exact .inr ⟨id, rfl, ⟨t', ht, hweak⟩, hkept, fun hrooted ↦ hpruned ⟨hweak, hrooted⟩⟩
  · obtain ⟨hlive, hkept⟩ :=
      (hc.live_iff (.userdata id)).1 (c.heap.userdata.live_iff.2 ⟨u', hu'⟩)
    obtain ⟨u, hu⟩ := h.userdata.live_iff.1 hlive
    -- A userdata that is flagged refers to what it referred to.
    have hlinks : u'.links = u.links := by
      by_cases hdue : h.Due roots id
      · obtain rfl := Option.some.inj (hu'.symm.trans (hc.userdata_flagged id u hu hdue))
        rfl
      · obtain rfl := Option.some.inj (hu'.symm.trans ((hc.userdata id hkept hdue).trans hu))
        rfl
    have hl : r' ∈ h.links (.userdata id) := by
      rw [hlinks] at hm
      rwa [links, hu]
    exact ⟨hl, .inl (hkept.link hl)⟩

/-- **A cycle leaves nothing dangling but in belated tables.** A cycle over an intact heap succeeds. All
that the roots refer to is there afterwards, and all that an object refers to unless it is a belated
table; and so the heap stays intact just if all that belated tables refer to is kept. -/
theorem intact_collect_iff (hi : h.Intact roots) :
    ∃ c, h.collect roots = .ok c ∧
      (∀ v ∈ roots, ∀ r, v.ref? = some r → c.heap.live r = true) ∧
      (∀ r, (¬ ∃ id, r = .table id ∧ h.Belated roots id) →
        ∀ r' ∈ c.heap.mentions r, c.heap.live r' = true) ∧
      (c.heap.Intact roots ↔
        ∀ id, h.Belated roots id → ∀ r ∈ h.mentions (.table id), h.Kept roots r) := by
  obtain ⟨c, hcollect, hc⟩ := collect_exact hi.numbered
  obtain ⟨hroots, hmentions⟩ := intact_iff.1 hi
  have hlive {r r' : Ref} (hr : r' ∈ c.heap.mentions r) (hkept : h.Kept roots r') :
      c.heap.live r' = true :=
    (hc.live_iff r').2 ⟨hmentions r r' (hc.mentions hr).1, hkept⟩
  have hrootsLeft : ∀ v ∈ roots, ∀ r, v.ref? = some r → c.heap.live r = true := by
    intro v hv r hr
    have hrooted : h.Rooted roots r := .root (List.mem_filterMap.2 ⟨v, hv, hr⟩)
    exact (hc.live_iff r).2 ⟨hroots v hv r hr, hrooted.kept⟩
  refine ⟨c, hcollect, hrootsLeft, fun r hr r' hm ↦ ?_, ?_⟩
  · exact hlive hm ((hc.mentions hm).2.resolve_right hr)
  · rw [intact_iff, and_iff_right hrootsLeft]
    constructor
    · -- A belated table is as it was, so all that it refers to has to be there.
      intro hleft id hb r hr
      obtain ⟨t, ht, -⟩ := hb.weak
      have hstays : c.heap.tables.get? id = some t :=
        hc.table id t ht hb.kept fun hpruned ↦ hb.unreached hpruned.2
      rw [mentions_table ht, ← mentions_table hstays] at hr
      exact ((hc.live_iff r).1 (hleft _ r hr)).2
    · intro hbelated r r' hm
      rcases (hc.mentions hm).2 with hkept | ⟨id, rfl, hb⟩
      · exact hlive hm hkept
      · exact hlive hm (hbelated id hb r' (hc.mentions hm).1)

/-- A userdata with a finalizer that keeps a weak table alive, which refers to another table. Nothing
refers to the userdata. -/
def afterlife : Heap where
  strings := ({} : StringPool).intern "__gc" |>.2
  tables := ⟨#[
    some { entries := .ofList [(.integer 1, .table 2)], weakValues := true },
    some { entries := .ofList [(.string 0, .boolean true)] },
    some {}], [], 3⟩
  userdata := ⟨#[some { content := .foreign 7, metatable := some 1, userValue := .table 0 }], [], 1⟩

/-- The table is removed, and the weak table still refers to it. -/
theorem collect_afterlife : ∃ c, afterlife.collect [] = .ok c ∧ ¬ c.heap.Intact [] := by
  have hintact : (afterlife.collect []).toOption.map (fun c ↦ decide (c.heap.Intact [])) =
      some false := by decide +kernel
  cases hc : afterlife.collect [] with
  | error s => simp [hc, Except.toOption] at hintact
  | ok c => exact ⟨c, rfl, by simpa [hc, Except.toOption] using hintact⟩

/-- What is wrong with the heap is a belated table. -/
theorem intact_collect_iff_afterlife : afterlife.Intact [] ∧ ∃ id, afterlife.Belated [] id := by
  have hi : afterlife.Intact [] := by decide +kernel
  obtain ⟨c, hc, hdangling⟩ := collect_afterlife
  obtain ⟨c', hc', -, -, hiff⟩ := intact_collect_iff hi
  obtain rfl := Except.ok.inj (hc.symm.trans hc')
  refine ⟨hi, Classical.byContradiction fun hnone ↦ hdangling (hiff.2 fun id hb ↦ ?_)⟩
  exact absurd ⟨id, hb⟩ hnone

/-- **Not every cycle leaves an intact heap intact.** -/
theorem not_intact_collect : ¬ ∀ (h : Heap) (roots : List Value) (c : Collection),
    h.Intact roots → h.collect roots = .ok c → c.heap.Intact roots := by
  intro hall
  obtain ⟨c, hc, hdangling⟩ := collect_afterlife
  exact hdangling (hall afterlife [] c (by decide +kernel) hc)

end Heap

end ObjectBridge
