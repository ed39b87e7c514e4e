import ObjectBridge.Proofs.Orderly
import ObjectBridge.Proofs.Storing

/-!
# Links to new tables

Names lead from table to table (`Heap.Leads`). Where the next name is missing, a new table can be
linked under it (`Heap.link`), and this disturbs nothing that is there: texts keep their numbers,
and fields that have a value keep it (`Heap.Grows`).

The new table takes a number that is not in use, but the table that it is linked to may be one that
is gone. If that has the number then the new table is linked to itself; its values are no others
then (`Heap.Solitary`).
-/

namespace ObjectBridge

/-- Interning a text that is there changes nothing. -/
theorem StringPool.intern_of_lookup {p : StringPool} {s : String} {id : Nat}
    (h : p.lookup s = some id) : p.intern s = (id, p) := by
  rw [intern, h]

/-- Interning leaves texts where they can be looked up. -/
theorem StringPool.Consistent.lookup_intern_of_some {p : StringPool} (hp : p.Consistent)
    (s : String) {s' : String} {id : Nat} (h : p.lookup s' = some id) : (p.intern s).2.lookup s' = some id :=
  ((hp.intern s).lookup_iff s' id).2 (hp.text?_intern_of_some s ((hp.lookup_iff s' id).1 h))

namespace Heap

variable {h h' h'' : Heap} {name : String} {names : List String} {base id table target : Nat}

/-! ### Fields -/

/-- A field has a value under the number of its text. -/
theorem rawGetField_eq {v : Value} (hv : v ≠ .nil) : h.rawGetField table name = v ↔
    ∃ key t, h.strings.lookup name = some key ∧ h.tables.get? table = some t ∧
      t.get (.string key) = v := by
  rw [rawGetField]
  cases h.strings.lookup name with
  | none => simpa using Ne.symm hv
  | some key =>
    simp only [rawGet]
    cases h.tables.get? table with
    | none => simpa using Ne.symm hv
    | some t => simp [Table.rawGet, Value.key?]

/-- Names lead from one table to another, each by a field of the table that the names before it lead
to. -/
inductive Leads (h : Heap) : List String → Nat → Nat → Prop
  | here {table : Nat} : Leads h [] table table
  | there {name : String} {names : List String} {table id target : Nat}
      (link : h.rawGetField table name = .table id) (rest : Leads h names id target) :
      Leads h (name :: names) table target

/-! ### Growth -/

/-- A heap has grown: texts, functions and userdata are as before, tables are still there, and
fields that had a value still have it. -/
structure Grows (h h' : Heap) : Prop where
  orderly : h.Orderly → h'.Orderly
  live {id : Nat} : h.tables.live id = true → h'.tables.live id = true
  texts {id : Nat} {s : String} : h.strings.text? id = some s → h'.strings.text? id = some s
  fields {table : Nat} {name : String} {v : Value} : v ≠ .nil →
    h.rawGetField table name = v → h'.rawGetField table name = v
  functions : h'.functions = h.functions
  userdata : h'.userdata = h.userdata

theorem Grows.refl (h : Heap) : h.Grows h where
  orderly ho := ho
  live hid := hid
  texts ht := ht
  fields _ hv := hv
  functions := rfl
  userdata := rfl

theorem Grows.trans (hg : h.Grows h') (hg' : h'.Grows h'') : h.Grows h'' where
  orderly ho := hg'.orderly (hg.orderly ho)
  live hid := hg'.live (hg.live hid)
  texts ht := hg'.texts (hg.texts ht)
  fields hv hf := hg'.fields hv (hg.fields hv hf)
  functions := hg'.functions.trans hg.functions
  userdata := hg'.userdata.trans hg.userdata

/-- Texts keep their numbers. -/
theorem Grows.lookup (hg : h.Grows h') (ho : h.Orderly) (hkey : h.strings.lookup name = some id) :
    h'.strings.lookup name = some id :=
  ((hg.orderly ho).strings.lookup_iff name id).2 (hg.texts ((ho.strings.lookup_iff name id).1 hkey))

/-- A link stays when the heap grows. -/
theorem Grows.link (hg : h.Grows h') (hlink : h.rawGetField table name = .table id) :
    h'.rawGetField table name = .table id :=
  hg.fields (by simp) hlink

/-- Nothing is changed in the tables that are there, but that at most one of them gets a link: to a
new table, under a name that was missing. -/
inductive Spares (h h' : Heap) : Prop
  | kept (kept : ∀ id, h.tables.live id = true → h'.tables.get? id = h.tables.get? id)
  | linked {base key new : Nat} {name : String} {t : Table}
      (get?_base : h.tables.get? base = some t) (missing : h.rawGetField base name = .nil)
      (not_live : h.tables.live new = false) (live : h'.tables.live new = true)
      (lookup : h'.strings.lookup name = some key)
      (kept : ∀ id, h.tables.live id = true → h'.tables.get? id =
        if id = base then some (t.set (.string key) (.table new)) else h.tables.get? id)

/-! ### Linking -/

/-- Make a table, and link it under a name to a table. -/
def link (h : Heap) (base : Nat) (name : String) : Heap :=
  ((h.addTable {}).2.intern name).2.modifyTable base fun t ↦
    t.set (.string (h.strings.intern name).1) (.table h.tables.nextId)

theorem get?_link (ho : h.Orderly) (id : Nat) : (h.link base name).tables.get? id =
    if base = id then
      (if id = h.tables.nextId then some {} else h.tables.get? id).map fun t ↦
        t.set (.string (h.strings.intern name).1) (.table h.tables.nextId)
    else if id = h.tables.nextId then some {} else h.tables.get? id := by
  show ((h.tables.insert {}).modify base _).get? id = _
  rw [SlotStore.get?_modify, ho.tables.get?_insert]

theorem nextId_ne_of_live (ho : h.Orderly) (hid : h.tables.live id = true) :
    id ≠ h.tables.nextId := by
  rintro rfl
  rw [SlotStore.live, ho.tables.get?_nextId] at hid
  exact absurd hid (by simp)

/-- A table other than the one that gets the link is as before. -/
theorem get?_link_of_ne (ho : h.Orderly) (hid : h.tables.live id = true) (hne : id ≠ base) :
    (h.link base name).tables.get? id = h.tables.get? id := by
  rw [get?_link ho, if_neg (Ne.symm hne), if_neg (nextId_ne_of_live ho hid)]

/-- The table that gets the link, if it is there. -/
theorem get?_link_self (ho : h.Orderly) (hbase : h.tables.live base = true) :
    (h.link base name).tables.get? base = (h.tables.get? base).map fun t ↦
      t.set (.string (h.strings.intern name).1) (.table h.tables.nextId) := by
  rw [get?_link ho, if_pos rfl, if_neg (nextId_ne_of_live ho hbase)]

theorem lookup_link (h : Heap) (base : Nat) (name : String) :
    (h.link base name).strings.lookup name = some (h.strings.intern name).1 :=
  StringPool.lookup_intern _ _

/-- Linking removes no table. -/
theorem live_link (ho : h.Orderly) (hid : h.tables.live id = true) :
    (h.link base name).tables.live id = true := by
  rw [SlotStore.live]
  by_cases hbase : id = base
  · subst hbase
    rw [get?_link_self ho hid, Option.isSome_map]
    exact hid
  · rw [get?_link_of_ne ho hid hbase]
    exact hid

/-- The link can be followed. -/
theorem rawGetField_link (hbase : (h.addTable {}).2.tables.live base = true) :
    (h.link base name).rawGetField base name = .table h.tables.nextId :=
  rawGetField_modifyTable_set (h := ((h.addTable {}).2.intern name).2) hbase
    (lookup_link h base name) _

theorem orderly_link (ho : h.Orderly) (base : Nat) (name : String) : (h.link base name).Orderly :=
  ((ho.addTable Table.references_empty).intern name).modifyTable base fun _ ht ↦ ht.set _ _

/-- **A link under a name that is missing disturbs nothing.** -/
theorem grows_link (ho : h.Orderly) (hmissing : h.rawGetField base name = .nil) :
    h.Grows (h.link base name) where
  orderly _ := orderly_link ho base name
  live := live_link ho
  texts ht := ho.strings.text?_intern_of_some name ht
  fields {table name' v} hv hfield := by
    obtain ⟨key, t, hkey, ht, hget⟩ := (rawGetField_eq hv).1 hfield
    have hlive : h.tables.live table = true := h.tables.live_iff.2 ⟨t, ht⟩
    have hkey' : (h.link base name).strings.lookup name' = some key :=
      ho.strings.lookup_intern_of_some name hkey
    refine (rawGetField_eq hv).2 ?_
    by_cases htable : table = base
    · subst htable
      refine ⟨key, _, hkey', (get?_link_self ho hlive).trans (by rw [ht, Option.map_some]), ?_⟩
      -- The field is another one than the link, since that had no value.
      have hne : key ≠ (h.strings.intern name).1 := by
        rintro rfl
        have hinterned := (ho.strings.intern name).lookup_iff
        have hsame := ((hinterned name' _).1 hkey').symm.trans
          ((hinterned name _).1 (lookup_link h table name))
        obtain rfl := Option.some.inj hsame
        exact hv (hfield.symm.trans hmissing)
      rw [Table.get_set, if_neg (by simpa using hne)]
      exact hget
    · exact ⟨key, t, hkey', (get?_link_of_ne ho hlive htable).trans ht, hget⟩
  functions := rfl
  userdata := rfl

/-! ### New tables -/

/-- A table is there, and it has no values but itself. -/
def Solitary (h : Heap) (table : Nat) : Prop :=
  ∃ t, h.tables.get? table = some t ∧ ∀ k v, t.entries.find? k = some v → v = .table table

/-- A new table is solitary, even if it has been linked to itself. -/
theorem solitary_link (ho : h.Orderly) (base : Nat) (name : String) :
    (h.link base name).Solitary h.tables.nextId := by
  rw [Solitary, get?_link ho]
  split
  · refine ⟨_, by rw [if_pos rfl, Option.map_some], fun k v hv ↦ ?_⟩
    rw [Table.find?_set] at hv
    split at hv
    · exact (Option.some.inj hv).symm
    · exact absurd hv (by rw [Dict.find?_empty]; simp)
  · exact ⟨{}, if_pos rfl, fun k v hv ↦ absurd hv (by rw [Dict.find?_empty]; simp)⟩

/-- A field of a solitary table is missing, or leads back to it. -/
theorem Solitary.rawGetField (hs : h.Solitary table) (name : String) :
    h.rawGetField table name = .nil ∨ h.rawGetField table name = .table table := by
  obtain ⟨t, ht, hself⟩ := hs
  refine or_iff_not_imp_left.2 fun hv ↦ ?_
  obtain ⟨key, t', -, ht', hget⟩ := (rawGetField_eq hv).1 rfl
  obtain rfl := Option.some.inj (ht.symm.trans ht')
  rw [← hget]
  rw [Table.get] at hget ⊢
  cases hfind : t.entries.find? (.string key) with
  | none =>
    rw [hfind] at hget
    exact absurd hget.symm hv
  | some v => exact hself _ _ hfind

theorem Solitary.live (hs : h.Solitary table) : h.tables.live table = true := by
  obtain ⟨t, ht, -⟩ := hs
  exact h.tables.live_iff.2 ⟨t, ht⟩

/-- A link spares the tables that are there, and so does what goes on elsewhere after it. -/
theorem spares_link (ho : h.Orderly) (hmissing : h.rawGetField base name = .nil)
    (hlater : (h.link base name).Grows h')
    (hkept : ∀ id, h.tables.live id = true →
      h'.tables.get? id = (h.link base name).tables.get? id) : h.Spares h' := by
  cases hbase : h.tables.get? base with
  | none =>
    -- The table that gets the link is not among those that are there.
    refine .kept fun id hid ↦ (hkept id hid).trans (get?_link_of_ne ho hid ?_)
    rintro rfl
    rw [SlotStore.live, hbase] at hid
    exact absurd hid (by simp)
  | some t =>
    have hthere : h.tables.live base = true := h.tables.live_iff.2 ⟨t, hbase⟩
    have hnew : h.tables.live h.tables.nextId = false := by
      rw [SlotStore.live, ho.tables.get?_nextId]
      rfl
    refine .linked hbase hmissing hnew (hlater.live (solitary_link ho base name).live)
      (hlater.lookup (orderly_link ho base name) (lookup_link h base name)) fun id hid ↦ ?_
    rw [hkept id hid]
    split
    · rename_i hid'
      subst hid'
      rw [get?_link_self ho hid, hbase, Option.map_some]
    · rename_i hne
      exact get?_link_of_ne ho hid hne

end Heap

end ObjectBridge
