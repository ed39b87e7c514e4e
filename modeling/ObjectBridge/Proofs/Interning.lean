import ObjectBridge.Proofs.Intact
import ObjectBridge.Proofs.Ledger

/-!
# Texts and keys

A string is a number, and when a cycle has removed it the number may come to stand for another text.
So it matters that nothing is left behind that still takes the number for the old text. The index of
texts is kept by the storage itself (`Heap.Orderly`), but the keys of tables are what programs write
there. A heap is *legible* if its storage is orderly and all keys refer to objects that are there
(`Heap.Legible`).

Keys are links, also those of weak tables, and so a table that a cycle leaves has all its keys
(`Heap.Legible.collect`). No other use of a machine removes anything, and so a heap stays legible
for as long as no program writes under a key that is gone (`Machine.Careful`). In such a heap the
field of a text can be looked up without making a string of the text
(`Machine.Careful.interning_transparent`).
-/

namespace ObjectBridge

/-- A key refers to what the value refers to that it is the key of. -/
theorem ref?_of_key? {v : Value} {k : Key} (h : v.key? = some k) : k.ref? = v.ref? := by
  cases v with
  | number x =>
    simp only [Value.key?] at h
    split at h
    · cases h
    · split at h <;> cases h <;> rfl
  | _ => cases h <;> rfl

/-- A write adds no key but the one it is under. -/
theorem Table.contains_set {t : Table} {key k : Key} {v : Value}
    (h : (t.set key v).entries.contains k = true) : t.entries.contains k = true ∨ k = key := by
  rw [Dict.contains, find?_set] at h
  split at h
  · exact .inr ‹_›
  · exact .inl h

/-- References are integers. -/
theorem Table.contains_reference {t : Table} {k : Key} {v : Value}
    (h : (t.reference v).entries.contains k = true) :
    t.entries.contains k = true ∨ ∃ n, k = .integer n := by
  rw [reference] at h
  split at h <;> exact (contains_set h).imp_right fun h ↦ ⟨_, h⟩

theorem Table.contains_unreference {t : Table} {k : Key} {r : Int}
    (h : (t.unreference r).entries.contains k = true) :
    t.entries.contains k = true ∨ ∃ n, k = .integer n := by
  rw [unreference] at h
  split at h
  · exact (contains_set h).imp_right fun h ↦ ⟨_, h⟩
  · exact .inl h

/-- A text that is gone is not found, if the texts that are there are where they were. -/
theorem StringPool.Consistent.lookup_of_gone {p p' : StringPool} (hp : p.Consistent)
    (hp' : p'.Consistent) (hold : ∀ id s, p'.text? id = some s → p.text? id = some s) {id : Nat}
    {s : String} (hs : p.text? id = some s) (hgone : p'.text? id = none) : p'.lookup s = none := by
  cases hlookup : p'.lookup s with
  | none => rfl
  | some id' =>
    have hs' := (hp'.lookup_iff s id').1 hlookup
    -- Before, the text had one number, and that one is gone.
    have hid' := (hp.lookup_iff s id').2 (hold id' s hs')
    rw [(hp.lookup_iff s id).2 hs, Option.some.injEq] at hid'
    rw [hid', hs'] at hgone
    cases hgone

namespace Heap

variable {h h' : Heap} {k : Key} {roots : List Value}

/-! ### Keys of a heap -/

/-- The key occurs in a table. -/
def HasKey (h : Heap) (k : Key) : Prop :=
  ∃ id t, h.tables.get? id = some t ∧ t.entries.contains k = true

/-- Storage is orderly, and all keys refer to objects that are there. -/
structure Legible (h : Heap) : Prop where
  orderly : h.Orderly
  key_live : ∀ k, h.HasKey k → ∀ r, k.ref? = some r → h.live r = true

/-- A change that removes no object, and adds no key of an object that is not there. -/
theorem Legible.extend (hl : h.Legible) (ho : h'.Orderly)
    (hlive : ∀ r, h.live r = true → h'.live r = true)
    (hkeys : ∀ k, h'.HasKey k → h.HasKey k ∨ ∀ r, k.ref? = some r → h'.live r = true) :
    h'.Legible where
  orderly := ho
  key_live k hk r hr := by
    rcases hkeys k hk with hold | hnew
    · exact hlive r (hl.key_live k hold r hr)
    · exact hnew r hr

theorem hasKey_of_modifyTable {id : Nat} {f : Table → Table} {P : Prop}
    (hf : ∀ t, (f t).entries.contains k = true → t.entries.contains k = true ∨ P)
    (hk : (h.modifyTable id f).HasKey k) : h.HasKey k ∨ P := by
  obtain ⟨id', t', ht', hk⟩ := hk
  rw [modifyTable, SlotStore.get?_modify] at ht'
  split at ht'
  · obtain ⟨t, ht, rfl⟩ := Option.map_eq_some_iff.1 ht'
    exact (hf t hk).imp_left fun hk ↦ ⟨id', t, ht, hk⟩
  · exact .inl ⟨id', t', ht', hk⟩

theorem hasKey_of_addTable (ho : h.Orderly) (hk : (h.addTable {}).2.HasKey k) : h.HasKey k := by
  obtain ⟨id, t, ht, hk⟩ := hk
  have hread : (h.tables.insert {}).get? id = some t := ht
  rw [ho.tables.get?_insert] at hread
  split at hread
  · obtain rfl := Option.some.inj hread
    exact absurd hk (by simp [Dict.contains])
  · exact ⟨id, t, hread, hk⟩

/-! ### Cycles -/

/-- The clearing step and the flags add no key to a table. -/
theorem exists_of_get?_clearWeak {m : Marks} {bound id : Nat} {ids : List Nat} {t' : Table}
    (ht' : ((h.clearWeak m bound).flagFinalized ids).tables.get? id = some t') :
    ∃ t, h.tables.get? id = some t ∧
      ∀ k, t'.entries.contains k = true → t.entries.contains k = true := by
  rw [tables_flagFinalized, clearWeak, SlotStore.get?_mapValues] at ht'
  obtain ⟨t, ht, rfl⟩ := Option.map_eq_some_iff.1 ht'
  refine ⟨t, ht, fun k hk ↦ ?_⟩
  split at hk
  · rw [Dict.contains, Dict.find?_filter] at hk
    obtain ⟨v, hv⟩ := Option.isSome_iff_exists.1 hk
    rw [Dict.contains, (Option.filter_eq_some_iff.1 hv).1]
    rfl
  · exact hk

/-- **What a cycle leaves as a key, it has kept.** -/
theorem hasKey_of_collect {c : Collection} (hc : h.collect roots = .ok c) (hk : c.heap.HasKey k) :
    h.HasKey k ∧ ∀ r, k.ref? = some r → h.Kept roots r := by
  obtain ⟨m, kept, -, hkept, -, hheap, -⟩ := exists_of_collect hc
  obtain ⟨id, t', ht', hk⟩ := hk
  rw [hheap, get?_sweep_tables] at ht'
  split at ht'
  case isFalse => cases ht'
  obtain ⟨t, ht, hsub⟩ := exists_of_get?_clearWeak ht'
  refine ⟨⟨id, t, ht, hsub k hk⟩, fun r hr ↦ ?_⟩
  -- The key is a link of the table as it was, whether or not the table has weak values.
  obtain ⟨v, hv⟩ := Option.isSome_iff_exists.1 (hsub k hk)
  have hlink : r ∈ t.links :=
    Table.mem_links_of_key ((t.entries.mem_toList_iff k v).2 hv) hr
  exact ((hkept _).1 ‹_›).link (by rwa [links, ht])

/-- **A cycle leaves the heap legible.** -/
theorem Legible.collect (hl : h.Legible) {c : Collection} (hc : h.collect roots = .ok c) :
    c.heap.Legible where
  orderly := hl.orderly.collect hc
  key_live k hk r hr := by
    obtain ⟨hold, hkept⟩ := hasKey_of_collect hc hk
    exact ((collects_of_collect hc).live_iff r).2 ⟨hl.key_live k hold r hr, hkept r hr⟩

/-- A cycle that meets a stray reference leaves the heap legible: it removes nothing. -/
theorem Legible.collect_error (hl : h.Legible) {i : Interruption}
    (hi : h.collect roots = .error i) : i.heap.Legible := by
  rcases exists_of_collect_error hi with heq | ⟨m, bound, ids, -, heq⟩
  · rw [heq]
    exact hl
  · refine hl.extend (hl.orderly.collect_error hi) (fun r hr ↦ ?_) fun k hk ↦ ?_
    · rw [heq, live_flagFinalized_clearWeak]
      exact hr
    · rw [heq] at hk
      obtain ⟨id, t', ht', hk⟩ := hk
      obtain ⟨t, ht, hsub⟩ := exists_of_get?_clearWeak ht'
      exact .inl ⟨id, t, ht, hsub k hk⟩

/-- Texts that a cycle leaves are where they were. -/
theorem text?_of_collect {c : Collection} (hc : h.collect roots = .ok c) {id : Nat} {s : String}
    (hs : c.heap.strings.text? id = some s) : h.strings.text? id = some s := by
  have hcollects := collects_of_collect hc
  have hlive : c.heap.live (.string id) = true := by
    rw [live, hs]
    rfl
  rw [← hcollects.text id ((hcollects.live_iff _).1 hlive).2]
  exact hs

/-- A cycle that meets a stray reference leaves the strings alone. -/
theorem strings_of_collect_error {i : Interruption} (hi : h.collect roots = .error i) :
    i.heap.strings = h.strings := by
  rcases exists_of_collect_error hi with heq | ⟨m, bound, ids, -, heq⟩
  · rw [heq]
  · rw [heq, strings_flagFinalized]
    rfl

theorem legible_initial : Machine.initial.heap.Legible where
  orderly := Machine.orderly_initial
  key_live k hk := by
    have hnone := hasKey_of_addTable (Heap.orderly_empty.addTable Table.references_empty) hk
    obtain ⟨id, t, ht, -⟩ := hasKey_of_addTable Heap.orderly_empty hnone
    exact absurd ht (by simp [SlotStore.get?])

end Heap

/-! ### Uses of a machine -/

/-- A use of a machine. -/
inductive MachineUse where
  | intern (s : String)
  | createTable
  | createFunction (c : Callable) (name : String)
  | createUserdata (u : Userdata)
  | modifyUserdata (id : Nat) (f : Userdata → Userdata)
  | setMetatable (v : Value) (mt : Option Nat)
  | table (id : Nat) (use : TableUse)
  | writeField (id : Nat) (name : String) (v : Value)
  | restack (stack : Array Value) (frames : List Nat)
  | collect

namespace MachineUse

/-- What a use makes of a machine. What fails changes nothing, but a text has become a string by
then, and a cycle that meets a stray reference leaves what it has done. -/
def perform (m : Machine) : MachineUse → Machine
  | intern s => (m.intern s).2
  | createTable => m.createTable.2
  | createFunction c name => (m.createFunction c name).2
  | createUserdata u => (m.createUserdata u).2
  | modifyUserdata id f => { m with heap := m.heap.modifyUserdata id f }
  | setMetatable v mt => (m.setMetatable v mt).toOption.getD m
  | table id use => use.perform id m
  | writeField id name v =>
    let (key, m) := m.intern name
    (m.rawSet id key v).toOption.getD m
  | restack stack frames => { m with stack := stack, frames := frames }
  | collect =>
    match m.heap.collect m.roots with
    | .ok c => { m with heap := c.heap, tally := m.tally.add c.tally }
    | .error i => { m with heap := i.heap }

/-- A write is not under a key whose object is gone. -/
def Current (m : Machine) : MachineUse → Prop
  | table _ (.write k _) => ∀ r, k.ref? = some r → m.heap.live r = true
  | _ => True

/-- A cycle moves no text. -/
theorem text?_of_collect {m : Machine} {id : Nat} {s : String}
    (hs : (collect.perform m).heap.strings.text? id = some s) :
    m.heap.strings.text? id = some s := by
  rw [perform] at hs
  cases hc : m.heap.collect m.roots with
  | ok c =>
    rw [hc] at hs
    exact Heap.text?_of_collect hc hs
  | error i =>
    rw [hc, Heap.strings_of_collect_error hc] at hs
    exact hs

end MachineUse

/-- The machines that a new machine becomes, if it is used so that no write is under a key whose
object is gone. -/
inductive Machine.Careful : Machine → Prop
  | initial : Careful .initial
  | use {m : Machine} (u : MachineUse) (careful : m.Careful) (current : u.Current m) :
    Careful (u.perform m)

namespace Heap.Legible

variable {m m' : Machine}

/-- An edit of a machine that adds no key of an object that is not there. -/
theorem edit (hl : m.heap.Legible) (he : m.Edits m')
    (hkeys : ∀ k, m'.heap.HasKey k →
      m.heap.HasKey k ∨ ∀ r, k.ref? = some r → m.heap.live r = true) :
    m'.heap.Legible :=
  hl.extend (he.orderly hl.orderly) he.live fun k hk ↦
    (hkeys k hk).imp_right fun hlive r hr ↦ he.live r (hlive r hr)

/-- A write under a key that is there. -/
theorem rawSet (hl : m.heap.Legible) {table : Nat} {k v : Value}
    (hk : ∀ r, k.ref? = some r → m.heap.live r = true) (hset : m.rawSet table k v = .ok m') :
    m'.heap.Legible := by
  refine hl.edit (Machine.edits_of_rawSet hset) fun key hkey ↦ ?_
  rw [Machine.rawSet] at hset
  split at hset
  case isFalse => cases hset
  split at hset
  · rename_i key' hkey'
    obtain rfl := Except.ok.inj hset
    refine hasKey_of_modifyTable (fun t h ↦ (Table.contains_set h).imp_right ?_) hkey
    rintro rfl r hr
    exact hk r ((ref?_of_key? hkey').symm.trans hr)
  · cases hset

/-- A metatable is no key. -/
theorem setMetatable (hl : m.heap.Legible) {v : Value} {mt : Option Nat}
    (hset : m.setMetatable v mt = .ok m') : m'.heap.Legible := by
  refine hl.edit (Machine.edits_of_setMetatable hset) fun k hk ↦ .inl ?_
  cases v with
  | table table =>
    simp only [Machine.setMetatable] at hset
    split at hset
    · obtain rfl := Except.ok.inj hset
      refine (hasKey_of_modifyTable ?_ hk).resolve_right not_false
      exact fun t h ↦ .inl h
    · cases hset
  | userdata id =>
    simp only [Machine.setMetatable] at hset
    split at hset
    · obtain rfl := Except.ok.inj hset
      exact hk
    · cases hset
  | word word =>
    obtain rfl := Except.ok.inj hset
    exact hk
  | _ => cases hset

/-- References and positions are no keys of objects. -/
theorem modifyTable_of_integer (hl : m.heap.Legible) (id : Nat) {f : Table → Table}
    (he : m.Edits { m with heap := m.heap.modifyTable id f })
    (hf : ∀ t k, (f t).entries.contains k = true →
      t.entries.contains k = true ∨ ∃ n, k = .integer n) :
    (m.heap.modifyTable id f).Legible :=
  hl.edit he fun k hk ↦ (hasKey_of_modifyTable (hf · k) hk).imp_right fun ⟨n, hn⟩ r hr ↦ by
    rw [hn] at hr
    cases hr

theorem intern (hl : m.heap.Legible) (s : String) : (m.intern s).2.heap.Legible :=
  hl.edit (m.edits_intern s) fun _ hk ↦ .inl hk

/-- The uses of a table leave the heap legible. -/
theorem tableUse (hl : m.heap.Legible) (id : Nat) (use : TableUse)
    (hcurrent : (MachineUse.table id use).Current m) : (use.perform id m).heap.Legible := by
  cases use with
  | write k v =>
    rw [TableUse.perform]
    cases hset : m.rawSet id k v with
    | error _ => exact hl
    | ok m' => exact hl.rawSet hcurrent hset
  | writePosition n v =>
    exact hl.modifyTable_of_integer id (m.edits_rawSetPosition id n v) fun t k hk ↦
      (Table.contains_set hk).imp_right fun h ↦ ⟨n, h⟩
  | reference v =>
    rw [TableUse.perform, Machine.reference]
    split
    · exact hl
    · split
      · exact hl.modifyTable_of_integer id
          (m.edits_modifyTable id fun _ ht ↦ ht.reference v) fun _ _ ↦ Table.contains_reference
      · exact hl
  | unreference r =>
    exact hl.modifyTable_of_integer id (m.edits_unreference id r) fun _ _ ↦
      Table.contains_unreference

/-- **Each use leaves the heap legible.** -/
theorem perform (hl : m.heap.Legible) (use : MachineUse) (hcurrent : use.Current m) :
    (use.perform m).heap.Legible := by
  cases use with
  | intern s => exact hl.intern s
  | createTable =>
    exact hl.edit m.edits_createTable fun _ hk ↦ .inl (hasKey_of_addTable hl.orderly hk)
  | createFunction c name => exact hl.edit (m.edits_createFunction c name) fun _ hk ↦ .inl hk
  | createUserdata u => exact hl.edit (m.edits_createUserdata u) fun _ hk ↦ .inl hk
  | modifyUserdata id f => exact hl.edit (m.edits_modifyUserdata id f) fun _ hk ↦ .inl hk
  | setMetatable v mt =>
    rw [MachineUse.perform]
    cases hset : m.setMetatable v mt with
    | error _ => exact hl
    | ok m' => exact hl.setMetatable hset
  | table id use => exact hl.tableUse id use hcurrent
  | writeField id name v =>
    rw [MachineUse.perform]
    dsimp only
    cases hset : (m.intern name).2.rawSet id (m.intern name).1 v with
    | error _ => exact hl.intern name
    | ok m' =>
      refine (hl.intern name).rawSet (fun r hr ↦ ?_) hset
      -- The key has been made just now.
      obtain rfl := Option.some.inj hr
      exact Option.isSome_iff_exists.2 ⟨name, hl.orderly.strings.intern_text? name⟩
  | restack stack frames => exact hl
  | collect =>
    rw [MachineUse.perform]
    cases hc : m.heap.collect m.roots with
    | ok c => exact hl.collect hc
    | error i => exact hl.collect_error hc

end Heap.Legible

/-! ### What a legible heap tells -/

namespace Heap

variable {h : Heap}

/-- **The field of a text is found without the string of the text.** A text that is not in the heap
would get a number that no key has. -/
theorem Legible.rawGetField_intern (hl : h.Legible) (table : Nat) (s : String) :
    h.rawGetField table s = (h.intern s).2.rawGet table (.string (h.intern s).1) := by
  cases hlookup : h.strings.lookup s with
  | some id => simp only [rawGetField, Heap.intern, StringPool.intern, hlookup]
  | none =>
    simp only [rawGetField, Heap.intern, StringPool.intern, hlookup, rawGet]
    cases ht : h.tables.get? table with
    | none => rfl
    | some t =>
      cases hkey : t.entries.find? (.string h.strings.texts.nextId) with
      | none => simp only [Table.rawGet, Value.key?, Table.get, hkey, Option.getD_none]
      | some v =>
        have hcontains : t.entries.contains (.string h.strings.texts.nextId) = true := by
          rw [Dict.contains, hkey]
          rfl
        have hlive : (h.strings.text? h.strings.texts.nextId).isSome = true :=
          hl.key_live _ ⟨table, t, ht, hcontains⟩ (.string _) rfl
        rw [StringPool.text?, hl.orderly.strings.sound.get?_nextId] at hlive
        cases hlive

end Heap

namespace Machine.Careful

variable {m : Machine}

theorem legible (hm : m.Careful) : m.heap.Legible := by
  induction hm with
  | initial => exact Heap.legible_initial
  | use u _ current ih => exact ih.perform u current

/-- **Interning is transparent.** After any use of a new machine in which no write is under a key
whose object is gone:

* strings are found by text just if they are found by number, so equal texts have one number;
* making a string of a text gives the string that has the text, if there is one;
* a text whose string a cycle has removed is not found any more;
* no key of a table is the number of a string that is gone;
* a field is found under its name just as under the string of its name. -/
theorem interning_transparent (hm : m.Careful) :
    (∀ s id, m.heap.strings.lookup s = some id ↔ m.heap.strings.text? id = some s) ∧
    (∀ s, (m.intern s).2.text? (m.intern s).1 = some s ∧
      ∀ id, m.heap.strings.text? id = some s → m.intern s = (.string id, m)) ∧
    (∀ id s, m.heap.strings.text? id = some s →
      (MachineUse.collect.perform m).heap.strings.text? id = none →
        (MachineUse.collect.perform m).heap.strings.lookup s = none) ∧
    (∀ id t key, m.heap.tables.get? id = some t → t.entries.contains (.string key) = true →
      (m.heap.strings.text? key).isSome = true) ∧
    ∀ table s, m.heap.rawGetField table s = (m.intern s).2.heap.rawGet table (m.intern s).1 := by
  have hl := hm.legible
  have hstrings := hl.orderly.strings
  refine ⟨hstrings.lookup_iff, fun s ↦ ⟨hstrings.intern_text? s, fun id hid ↦ ?_⟩,
    fun id s hs hgone ↦ ?_, fun id t key ht hkey ↦ ?_, hl.rawGetField_intern⟩
  · have hlookup := (hstrings.lookup_iff s id).2 hid
    simp only [Machine.intern, Heap.intern, StringPool.intern, hlookup]
  · exact hstrings.lookup_of_gone (hl.perform .collect trivial).orderly.strings
      (fun _ _ ↦ MachineUse.text?_of_collect) hs hgone
  · exact hl.key_live _ ⟨id, t, ht, hkey⟩ (.string key) rfl

end Machine.Careful

/-- A string is made and removed, and its number goes to the name of a field. -/
def Machine.recycled : Machine :=
  (MachineUse.writeField 0 "name" (.integer 7)).perform <|
    MachineUse.collect.perform <| (MachineUse.intern "transient").perform .initial

/-- The field is found under its own name alone. -/
theorem Machine.Careful.interning_transparent_recycled :
    Machine.recycled.Careful ∧
      (Machine.initial.intern "transient").1 = .string 0 ∧
      (Machine.recycled.intern "name").1 = .string 0 ∧
      Machine.recycled.heap.rawGetField 0 "name" = .integer 7 ∧
      (Machine.recycled.intern "transient").2.heap.rawGet 0
        (Machine.recycled.intern "transient").1 = .nil := by
  have hcareful : Machine.recycled.Careful :=
    .use _ (.use _ (.use _ .initial trivial) trivial) trivial
  obtain ⟨-, hmade, -, -, hfield⟩ := hcareful.interning_transparent
  have hname : Machine.recycled.heap.strings.text? 0 = some "name" := by decide +kernel
  refine ⟨hcareful, by decide +kernel, ?_, by decide +kernel, ?_⟩
  · rw [(hmade "name").2 0 hname]
  · rw [← hfield]
    decide +kernel

/-- The number of a string that is gone must not be written: the next text to get it finds the
entry. -/
example :
    let m := MachineUse.collect.perform ((MachineUse.intern "transient").perform .initial)
    let m := (MachineUse.table 0 (.write (.string 0) (.integer 7))).perform m
    m.heap.rawGetField 0 "name" = .nil ∧
      (m.intern "name").2.heap.rawGet 0 (m.intern "name").1 = .integer 7 := by
  decide +kernel

/-! ### Uses that the bridge makes -/

namespace Exec

/-- A cycle of the bridge is one of the machine, after the references of pins that are gone have
been released. -/
theorem machine_sweep (w : World) :
    (sweep.outcome w).2.binding.machine =
      MachineUse.collect.perform (flushed w).binding.machine := by
  refine Ends.world (P := fun w' ↦ w'.binding.machine = _) ?_
  simp only [sweep, ends_bind, ends_flushPins, ends_machine]
  rw [MachineUse.perform]
  cases (flushed w).binding.machine.heap.collect (flushed w).binding.machine.roots with
  | ok c => rfl
  | error i => rfl

/-- Writing under a name makes a string of it first. -/
theorem machine_rawSetField (w : World) (id : Nat) (name : String) (v : Value) :
    ((rawSetField id name v).outcome w).2.binding.machine =
      (MachineUse.writeField id name v).perform w.binding.machine := by
  refine Ends.world (P := fun w' ↦ w'.binding.machine = _) ?_
  simp only [rawSetField, intern, rawSet, ends_bind, ends_updateMachine, ends_machine]
  rw [MachineUse.perform]
  dsimp only
  cases (w.binding.machine.intern name).2.rawSet id (w.binding.machine.intern name).1 v with
  | ok m => rfl
  | error f => rfl

end Exec

end ObjectBridge
