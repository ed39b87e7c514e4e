import ObjectBridge.Proofs.Recalling
import ObjectBridge.Proofs.StringPool
import ObjectBridge.Setup

/-!
# Preparing a machine

When a machine is prepared, tables are made and filled. `World.Prepares P w w'` says that this has
gone on from `w` to `w'` without touching the tables in `P`, and `Exec.Builds P x Q w` that a
computation does nothing else. What holds of a machine once it is prepared is put together from a few
such computations in `Exec.ends_setup`; the failures of a preparation do not matter, since there is no
binding then.
-/

namespace ObjectBridge

namespace World

variable {P P' : Set Nat} {w w' w'' : World}

/-- A table of the machine. -/
def table? (w : World) (id : Nat) : Option Table :=
  w.binding.machine.heap.tables.get? id

/-- A text of the machine. -/
def text? (w : World) (id : Nat) : Option String :=
  w.binding.machine.heap.strings.text? id

/-- A function of the machine. -/
def function? (w : World) (id : Nat) : Option Function :=
  w.binding.machine.heap.functions.get? id

/-- Tables, functions and strings are stored properly, and the tables in `P` are there. -/
structure Ready (P : Set Nat) (w : World) : Prop where
  tables : w.binding.machine.heap.tables.Sound
  functions : w.binding.machine.heap.functions.Sound
  strings : w.binding.machine.heap.strings.Consistent
  there : ∀ id ∈ P, ∃ t, w.table? id = some t

/-- Tables have been made and filled, but none of those in `P`. -/
structure Prepares (P : Set Nat) (w w' : World) : Prop where
  ready : w'.Ready P
  host : w'.host = w.host
  pins : w'.pins = w.pins
  binding : w'.binding = { w.binding with machine := w'.binding.machine }
  registry : w'.binding.machine.registry = w.binding.machine.registry
  globals : w'.binding.machine.globals = w.binding.machine.globals
  userdata : w'.binding.machine.heap.userdata = w.binding.machine.heap.userdata
  text : ∀ {id s}, w.text? id = some s → w'.text? id = some s
  function : ∀ {id f}, w.function? id = some f → w'.function? id = some f
  there : ∀ {id t}, w.table? id = some t → ∃ t', w'.table? id = some t'
  kept : ∀ {id}, id ∈ P → w'.table? id = w.table? id
  /-- The metatable of packed words stays along with the registry of the machine, which names it. -/
  light : w.binding.machine.registry ∈ P →
    w'.binding.machine.lightMetatable = w.binding.machine.lightMetatable

theorem Ready.mono (hw : w.Ready P) (hP : P' ⊆ P) : w.Ready P' :=
  ⟨hw.tables, hw.functions, hw.strings, fun id hid ↦ hw.there id (hP hid)⟩

theorem Ready.insert (hw : w.Ready P) {id : Nat} {t : Table} (ht : w.table? id = some t) :
    w.Ready (insert id P) :=
  ⟨hw.tables, hw.functions, hw.strings, fun id' hid ↦
    (Set.mem_insert_iff.1 hid).elim (fun h ↦ ⟨t, h ▸ ht⟩) (hw.there id')⟩

/-- A number that no table has is not one of a table that is there. -/
theorem Ready.not_mem (hw : w.Ready P) {id : Nat} (hid : w.table? id = none) : id ∉ P := by
  intro hm
  obtain ⟨t, ht⟩ := hw.there id hm
  exact absurd (hid.symm.trans ht) (by simp)

theorem Prepares.refl (hw : w.Ready P) : w.Prepares P w :=
  ⟨hw, rfl, rfl, rfl, rfl, rfl, rfl, fun h ↦ h, fun h ↦ h, fun {_ t} h ↦ ⟨t, h⟩, fun _ ↦ rfl,
    fun _ ↦ rfl⟩

theorem Prepares.trans (h : w.Prepares P w') (h' : w'.Prepares P w'') : w.Prepares P w'' where
  ready := h'.ready
  host := h'.host.trans h.host
  pins := h'.pins.trans h.pins
  binding := by rw [h'.binding, h.binding]
  registry := h'.registry.trans h.registry
  globals := h'.globals.trans h.globals
  userdata := h'.userdata.trans h.userdata
  text ht := h'.text (h.text ht)
  function hf := h'.function (h.function hf)
  there ht := by
    obtain ⟨t', ht'⟩ := h.there ht
    exact h'.there ht'
  kept hid := (h'.kept hid).trans (h.kept hid)
  light hid := (h'.light (h.registry ▸ hid)).trans (h.light hid)

theorem Prepares.mono (h : w.Prepares P w') (hP : P' ⊆ P) : w.Prepares P' w' :=
  { h with
    ready := h.ready.mono hP
    kept := fun hid ↦ h.kept (hP hid)
    light := fun hid ↦ h.light (hP hid) }

end World

namespace Exec

variable {α β : Type} {P : Set Nat} {w : World}

/-- **A computation makes and fills tables**, none of those in `P`; if it does not fail, value and
world afterwards satisfy `Q`. -/
def Builds (P : Set Nat) (x : Exec α) (Q : α → World → Prop) (w : World) : Prop :=
  Ends x (fun a w' ↦ w.Prepares P w' ∧ Q a w') (fun _ _ ↦ True) w

variable {x : Exec α} {Q Q' : α → World → Prop}

theorem Builds.imp (h : Builds P x Q w) (hQ : ∀ a w', w.Prepares P w' → Q a w' → Q' a w') :
    Builds P x Q' w :=
  Ends.imp h (fun a w' ha ↦ ⟨ha.1, hQ a w' ha.1 ha.2⟩) fun _ _ h ↦ h

theorem builds_pure (hw : w.Ready P) {a : α} (ha : Q a w) : Builds P (pure a) Q w :=
  ⟨World.Prepares.refl hw, ha⟩

theorem Builds.bind (hx : Builds P x Q w) {f : α → Exec β} {Q' : β → World → Prop}
    (hf : ∀ a w₁, w.Prepares P w₁ → Q a w₁ → Builds P (f a) Q' w₁) :
    Builds P (x >>= f) Q' w := by
  rw [Builds, ends_bind]
  exact Ends.imp hx (fun a w₁ ha ↦ Ends.imp (hf a w₁ ha.1 ha.2)
    (fun _ _ hb ↦ ⟨ha.1.trans hb.1, hb.2⟩) fun _ _ h ↦ h) fun _ _ h ↦ h

/-- What a computation leaves alone may be told with its result. -/
theorem Builds.mono {P' : Set Nat} (h : Builds P x Q w) (hP : P' ⊆ P) :
    Builds P' x (fun a w' ↦ w.Prepares P w' ∧ Q a w') w :=
  Ends.imp h (fun _ _ ha ↦ ⟨ha.1.mono hP, ha⟩) fun _ _ h ↦ h

theorem builds_forM {l : List α} {f : α → Exec Unit} (hw : w.Ready P)
    (hf : ∀ a ∈ l, ∀ w₁, w.Prepares P w₁ → Builds P (f a) (fun _ _ ↦ True) w₁) :
    Builds P (l.forM f) (fun _ _ ↦ True) w := by
  induction l generalizing w with
  | nil => exact builds_pure hw trivial
  | cons a l ih =>
    refine (hf a List.mem_cons_self w (.refl hw)).bind fun _ w₁ h₁ _ ↦ ?_
    exact ih h₁.ready fun b hb w₂ h₂ ↦ hf b (List.mem_cons_of_mem a hb) w₂ (h₁.trans h₂)

/-! ### Primitives -/

theorem builds_createTable (hw : w.Ready P) :
    Builds P createTable (fun id w' ↦ w.table? id = none ∧ w'.table? id = some {} ∧
      ∀ id' t, w.table? id' = some t → id' ≠ id ∧ w'.table? id' = some t) w := by
  have hinsert := hw.tables.get?_insert ({} : Table)
  have hnext := hw.tables.get?_nextId
  have hold : ∀ id' t, w.table? id' = some t →
      id' ≠ w.binding.machine.heap.tables.nextId ∧
        (w.binding.machine.heap.tables.insert {}).get? id' = some t := fun id' t ht ↦ by
    have hne : id' ≠ w.binding.machine.heap.tables.nextId := by
      rintro rfl
      exact absurd (hnext.symm.trans ht) (by simp)
    exact ⟨hne, by rw [hinsert, if_neg hne]; exact ht⟩
  refine ⟨⟨⟨hw.tables.insert {}, hw.functions, hw.strings, fun id hid ↦ ?_⟩, rfl, rfl, rfl, rfl, rfl, rfl,
    fun h ↦ h, fun h ↦ h, fun {id t} ht ↦ ⟨t, (hold id t ht).2⟩, fun {id} hid ↦ ?_, fun _ ↦ rfl⟩,
    hnext, ?_, hold⟩
  · obtain ⟨t, ht⟩ := hw.there id hid
    exact ⟨t, (hold id t ht).2⟩
  · obtain ⟨t, ht⟩ := hw.there id hid
    rw [ht]
    exact (hold id t ht).2
  · exact (hinsert _).trans (if_pos rfl)

theorem builds_intern (hw : w.Ready P) (s : String) :
    Builds P (intern s) (fun v w' ↦ (∃ id, v = .string id ∧ w'.text? id = some s) ∧
      ∀ id, w'.table? id = w.table? id) w := by
  refine ⟨⟨⟨hw.tables, hw.functions, hw.strings.intern s, hw.there⟩, rfl, rfl, rfl, rfl, rfl, rfl,
    fun h ↦ hw.strings.text?_intern_of_some s h, fun h ↦ h, fun {_ t} ht ↦ ⟨t, ht⟩, fun _ ↦ rfl,
    fun _ ↦ rfl⟩, ⟨_, rfl, hw.strings.intern_text? s⟩, fun _ ↦ rfl⟩

theorem builds_createFunction (hw : w.Ready P) (c : Callable) (name : String) :
    Builds P (updateMachine (·.createFunction c name))
      (fun v w' ↦ (∃ id, v = .function id ∧ w'.function? id = some ⟨c, name⟩) ∧
        ∀ id, w'.table? id = w.table? id) w := by
  have hinsert := hw.functions.get?_insert (⟨c, name⟩ : Function)
  refine ⟨⟨⟨hw.tables, hw.functions.insert _, hw.strings, hw.there⟩, rfl, rfl, rfl, rfl, rfl, rfl,
    fun h ↦ h, fun {id f} hf ↦ ?_, fun {_ t} ht ↦ ⟨t, ht⟩, fun _ ↦ rfl, fun _ ↦ rfl⟩,
    ⟨_, rfl, (hinsert _).trans (if_pos rfl)⟩, fun _ ↦ rfl⟩
  refine (hinsert id).trans ((if_neg ?_).trans hf)
  rintro rfl
  exact absurd (hw.functions.get?_nextId.symm.trans hf) (by simp)

/-- A table outside `P` is changed. -/
theorem prepares_modifyTable (hw : w.Ready P) {id : Nat} (hid : id ∉ P) (f : Table → Table) :
    w.Prepares P { w with binding.machine.heap := w.binding.machine.heap.modifyTable id f } := by
  have hget : ∀ id', (w.binding.machine.heap.modifyTable id f).tables.get? id' =
      if id = id' then (w.table? id').map f else w.table? id' := fun id' ↦
    SlotStore.get?_modify _ _ _ _
  have hkept : ∀ {id'}, id' ∈ P → (w.binding.machine.heap.modifyTable id f).tables.get? id' =
      w.table? id' := fun {id'} hid' ↦ by
    rw [hget, if_neg]
    rintro rfl
    exact hid hid'
  refine ⟨⟨hw.tables.modify id f, hw.functions, hw.strings, fun id' hid' ↦ ?_⟩, rfl, rfl, rfl, rfl,
    rfl, rfl, fun h ↦ h, fun h ↦ h, fun {id' t} ht ↦ ?_, fun hid' ↦ hkept hid', fun _ ↦ rfl⟩
  · obtain ⟨t, ht⟩ := hw.there id' hid'
    exact ⟨t, (hkept hid').trans ht⟩
  · show ∃ t', (w.binding.machine.heap.modifyTable id f).tables.get? id' = some t'
    rw [hget, ht]
    split <;> exact ⟨_, rfl⟩

theorem builds_rawSetField (hw : w.Ready P) {id : Nat} (hid : id ∉ P) (name : String) (v : Value) :
    Builds P (rawSetField id name v)
      (fun _ w' ↦ (∃ t k, w.table? id = some t ∧ w'.text? k = some name ∧
          w'.table? id = some (t.set (.string k) v)) ∧
        ∀ id', id' ≠ id → w'.table? id' = w.table? id') w := by
  refine (builds_intern hw name).bind fun k w₁ h₁ hk ↦ ?_
  obtain ⟨⟨k, rfl, hk⟩, htables⟩ := hk
  simp only [Builds, rawSet, ends_bind, ends_machine, Machine.rawSet]
  split
  · rename_i hlive
    obtain ⟨t, ht⟩ := (SlotStore.live_iff _).1 hlive
    have hget : ∀ id', (w₁.binding.machine.heap.modifyTable id fun t ↦
        t.set (.string k) v).tables.get? id' = if id = id' then (w₁.table? id').map fun t ↦
          t.set (.string k) v else w₁.table? id' := fun id' ↦ SlotStore.get?_modify _ _ _ _
    refine ⟨prepares_modifyTable h₁.ready hid _, ⟨t, k, ?_, hk, ?_⟩, fun id' hne ↦ ?_⟩
    · rw [← htables]
      exact ht
    · refine (hget id).trans ?_
      rw [if_pos rfl]
      show (w₁.binding.machine.heap.tables.get? id).map _ = _
      rw [ht]
      rfl
    · refine (hget id').trans ?_
      rw [if_neg fun e ↦ hne e.symm, htables]
  · exact trivial

theorem builds_setFunction (hw : w.Ready P) {id : Nat} (hid : id ∉ P) (name : String)
    (c : Callable) : Builds P (setFunction id name c) (fun _ _ ↦ True) w := by
  refine (builds_createFunction hw c name).bind fun f w₁ h₁ _ ↦ ?_
  exact (builds_rawSetField h₁.ready hid name f).imp fun _ _ _ _ ↦ trivial

theorem builds_setBuiltins (hw : w.Ready P) {id : Nat} (hid : id ∉ P)
    (entries : List (String × Builtin)) :
    Builds P (setBuiltins id entries) (fun _ _ ↦ True) w :=
  builds_forM hw fun entry _ _ h₁ ↦ builds_setFunction h₁.ready hid entry.1 (.builtin entry.2)

theorem builds_setName (hw : w.Ready P) {id : Nat} (hid : id ∉ P) (name : String) :
    Builds P (setName id name) (fun _ _ ↦ True) w := by
  refine (builds_intern hw name).bind fun text w₁ h₁ _ ↦ ?_
  exact (builds_rawSetField h₁.ready hid "__name" text).imp fun _ _ _ _ ↦ trivial

theorem builds_setRegistryTable (hw : w.Ready P) (hid : w.binding.machine.registry ∉ P)
    (name : String) (table : Nat) :
    Builds P (setRegistryTable name table)
      (fun _ w' ↦ (∃ t k, w.table? w.binding.machine.registry = some t ∧ w'.text? k = some name ∧
          w'.table? w.binding.machine.registry = some (t.set (.string k) (.table table))) ∧
        ∀ id', id' ≠ w.binding.machine.registry → w'.table? id' = w.table? id') w :=
  builds_rawSetField hw hid name (.table table)

end Exec

/-! ### The tables of the bridge -/

namespace World

variable {w w' : World} {cache : Nat}

/-- The table that is kept under a name in the registry of the machine, which keeps what it has. -/
def Links (w : World) (name : String) (table : Nat) : Prop :=
  ∃ t k, w.table? w.binding.machine.registry = some t ∧ t.weakValues = false ∧
    w.text? k = some name ∧ t.entries.find? (.string k) = some (.table table)

/-- The registry of the machine keeps what it has. -/
def Strong (w : World) : Prop :=
  ∃ t, w.table? w.binding.machine.registry = some t ∧ t.weakValues = false

/-- The table of the cache is there, its values are weak, and no reference of it is in use. -/
def Weakened (w : World) (cache : Nat) : Prop :=
  ∃ t, w.table? cache = some t ∧ t.weakValues = true ∧ t.References

/-- The registry of the machine is not touched. -/
theorem Prepares.strong {P : Set Nat} (h : w.Prepares P w')
    (hid : w.binding.machine.registry ∈ P) (hs : w.Strong) : w'.Strong := by
  obtain ⟨t, ht, hstrong⟩ := hs
  exact ⟨t, by rw [h.registry, h.kept hid, ht], hstrong⟩

theorem Prepares.links {P : Set Nat} (h : w.Prepares P w')
    (hid : w.binding.machine.registry ∈ P) {name : String} {table : Nat}
    (hl : w.Links name table) : w'.Links name table := by
  obtain ⟨t, k, ht, hstrong, hk, hfind⟩ := hl
  exact ⟨t, k, by rw [h.registry, h.kept hid, ht], hstrong, h.text hk, hfind⟩

/-- What the preparation of the tables of the bridge comes to. -/
structure Outfitted (w : World) (t : BridgeTables) : Prop where
  weakened : w.Weakened t.cache
  links : w.Links "bind.cache" t.cache
  cache_ne : t.cache ≠ w.binding.machine.registry ∧ t.cache ≠ w.binding.machine.globals
  apart : ∀ id ∈ [t.typeMetatables, t.pinned, t.containerMetatable, t.cursorMetatable],
    id ≠ t.cache ∧ id ≠ w.binding.machine.registry ∧ id ≠ w.binding.machine.globals
  types : t.typeMetatables ∉ [t.pinned, t.containerMetatable, t.cursorMetatable]
  pinned : w.table? t.pinned = some {} ∧ w.Links "bind.objs" t.pinned
  pinned_ne : t.pinned ∉ [t.containerMetatable, t.cursorMetatable]
  there : ∀ id ∈ [t.typeMetatables, t.cache, t.pinned, t.containerMetatable, t.cursorMetatable],
    ∃ table, w.table? id = some table

/-- The metatables of the bridge are not among the tables that are left alone once they are made. -/
theorem Outfitted.not_mem {t : BridgeTables} (h : w.Outfitted t) {id : Nat}
    (hid : id ∈ [t.typeMetatables, t.containerMetatable, t.cursorMetatable]) :
    id ∉ ({t.cache, t.pinned, w.binding.machine.registry, w.binding.machine.globals} : Set Nat) := by
  have hmem : id ∈ [t.typeMetatables, t.pinned, t.containerMetatable, t.cursorMetatable] := by
    simp only [List.mem_cons, List.not_mem_nil, or_false] at hid ⊢
    rcases hid with h | h | h <;> simp [h]
  have hne : id ≠ t.pinned := by
    have htypes := h.types
    have hpinned := h.pinned_ne
    simp only [List.mem_cons, List.not_mem_nil, or_false, not_or] at hid htypes hpinned
    rcases hid with rfl | rfl | rfl
    · exact htypes.1
    · exact Ne.symm hpinned.1
    · exact Ne.symm hpinned.2
  obtain ⟨hcache, hregistry, hglobals⟩ := h.apart id hmem
  simp [hcache, hregistry, hglobals, hne]

/-- Writing down which tables they are makes no difference to them. -/
theorem Outfitted.tables {t : BridgeTables} (h : w.Outfitted t) :
    Outfitted { w with binding.tables := t } t :=
  ⟨h.weakened, h.links, h.cache_ne, h.apart, h.types, h.pinned, h.pinned_ne, h.there⟩

end World

namespace Exec

variable {P : Set Nat} {w : World}

/-- A table is put into the registry of the machine under a name; what is linked under another name
stays linked. -/
theorem builds_link (hw : w.Ready P) (hid : w.binding.machine.registry ∉ P) (hstrong : w.Strong)
    (name : String) (table : Nat) :
    Builds P (setRegistryTable name table)
      (fun _ w' ↦ w'.Links name table ∧ w'.Strong ∧
        (∀ name' table', name' ≠ name → w.Links name' table' → w'.Links name' table') ∧
        ∀ id', id' ≠ w.binding.machine.registry → w'.table? id' = w.table? id') w := by
  refine (builds_setRegistryTable hw hid name table).imp fun _ w' h₁ h ↦ ?_
  obtain ⟨⟨t, k, ht, hk, ht'⟩, hothers⟩ := h
  obtain ⟨t', hget, hweak⟩ := hstrong
  obtain rfl := Option.some.inj (ht.symm.trans hget)
  rw [← h₁.registry] at ht'
  refine ⟨⟨_, k, ht', hweak, hk, ?_⟩, ⟨_, ht', hweak⟩, fun name' table' hne hlink ↦ ?_, hothers⟩
  · rw [Table.set, if_neg (by simp [Value.isNil]), Dict.find?_insert, if_pos rfl]
  · obtain ⟨t', k', hget', -, hk', hfind⟩ := hlink
    obtain rfl := Option.some.inj (ht.symm.trans hget')
    have hkne : Key.string k' ≠ .string k := by
      rintro hkk
      rw [Key.string.injEq] at hkk
      subst hkk
      exact hne (Option.some.inj ((h₁.text hk').symm.trans hk))
    refine ⟨_, k', ht', hweak, h₁.text hk', ?_⟩
    rw [Table.set, if_neg (by simp [Value.isNil]), Dict.find?_insert, if_neg hkne, hfind]

/-- A table is given weak values by a metatable that asks for them. -/
theorem builds_weaken (hw : w.Ready P) {cache mode : Nat} {t mt : Table} {k v : Nat}
    (hcache : w.table? cache = some t) (ht : t.References) (hP : cache ∉ P)
    (hmt : w.table? mode = some mt) (hk : w.text? k = some "__mode") (hv : w.text? v = some "v")
    (hget : mt.get (.string k) = .string v) :
    Builds P (do
        let m ← machine
        let m ← ofExcept (m.setMetatable (.table cache) (some mode))
        modifyMachine fun _ ↦ m)
      (fun _ w' ↦ w'.Weakened cache ∧ ∀ id', id' ≠ cache → w'.table? id' = w.table? id') w := by
  have hlive : w.binding.machine.heap.tables.live cache = true :=
    (SlotStore.live_iff _).2 ⟨t, hcache⟩
  have hasks : w.binding.machine.asksWeakValues mode = true := by
    have hlookup : w.binding.machine.heap.strings.lookup "__mode" = some k :=
      (hw.strings.lookup_iff _ _).2 hk
    have hmode : w.binding.machine.heap.rawGetField mode "__mode" = .string v := by
      have hmt' : w.binding.machine.heap.tables.get? mode = some mt := hmt
      simp only [Heap.rawGetField, hlookup, Heap.rawGet, hmt']
      exact hget
    have htext : w.binding.machine.text? (.string v) = some "v" := hv
    rw [Machine.asksWeakValues, hmode, htext]
    decide
  simp only [Builds, ends_bind, ends_machine, Machine.setMetatable, hlive, if_true,
    ends_ofExcept_ok, ends_modifyMachine]
  have hothers : ∀ id', (w.binding.machine.heap.modifyTable cache fun t ↦ { t with
      metatable := some mode, weakValues := (some mode).any w.binding.machine.asksWeakValues }
        ).tables.get? id' = if cache = id' then (w.table? id').map fun t ↦ { t with
      metatable := some mode, weakValues := (some mode).any w.binding.machine.asksWeakValues }
        else w.table? id' := fun id' ↦ SlotStore.get?_modify _ _ _ _
  have hweak : (w.binding.machine.heap.modifyTable cache fun t ↦ { t with
      metatable := some mode, weakValues := (some mode).any w.binding.machine.asksWeakValues }
        ).tables.get? cache = some { t with metatable := some mode, weakValues := true } := by
    rw [hothers, if_pos rfl, hcache, Option.any_some, hasks]
    rfl
  exact ⟨prepares_modifyTable hw hP _,
    ⟨_, hweak, rfl, ht.nodup_free, ht.pos_of_mem_free, ht.lt_of_mem_free, ht.pos⟩,
    fun id' hne ↦ (hothers id').trans (if_neg fun e ↦ hne e.symm)⟩

/-- What is known after a table has been made and put into the registry of the machine. -/
structure Linked (name : String) (id : Nat) (w w' : World) : Prop where
  fresh : w.table? id = none
  empty : w'.table? id = some {}
  strong : w'.Strong
  linked : w'.Links name id
  links : ∀ name' table, name' ≠ name → w.Links name' table → w'.Links name' table
  kept : ∀ {id' t}, id' ≠ w.binding.machine.registry → w.table? id' = some t →
    w'.table? id' = some t

/-- A table is made and put into the registry of the machine. -/
theorem builds_createLinked {β : Type} (hw : w.Ready P) (hid : w.binding.machine.registry ∉ P)
    (hstrong : w.Strong) {name : String} {f : Nat → Exec β} {Q : β → World → Prop}
    (hf : ∀ id w', w.Prepares P w' → Linked name id w w' → Builds P (f id) Q w') :
    Builds P (createTable >>= fun id ↦ setRegistryTable name id >>= fun _ ↦ f id) Q w := by
  refine (builds_createTable hw).bind fun id w₁ h₁ hnew ↦ ?_
  obtain ⟨hfresh, hempty, hold⟩ := hnew
  have hstrong₁ : w₁.Strong := by
    obtain ⟨t, ht, hweak⟩ := hstrong
    exact ⟨t, by rw [h₁.registry]; exact (hold _ t ht).2, hweak⟩
  have hne : id ≠ w₁.binding.machine.registry := by
    obtain ⟨t, ht, -⟩ := hstrong
    rw [h₁.registry]
    exact fun e ↦ (hold _ t ht).1 e.symm
  have hid₁ : w₁.binding.machine.registry ∉ P := by rwa [h₁.registry]
  refine (builds_link h₁.ready hid₁ hstrong₁ name id).bind fun _ w₂ h₂ hlinked ↦ ?_
  obtain ⟨hlinked, hstrong₂, hlinks, hothers⟩ := hlinked
  refine hf id w₂ (h₁.trans h₂) ⟨hfresh, (hothers id hne).trans hempty, hstrong₂, hlinked,
    fun name' table hname hl ↦ hlinks name' table hname ?_, fun {id' t} hid' ht ↦ ?_⟩
  · obtain ⟨t, k, ht, hweak, hk, hfind⟩ := hl
    exact ⟨t, k, by rw [h₁.registry]; exact (hold _ t ht).2, hweak, h₁.text hk, hfind⟩
  · rw [hothers id' (by rwa [h₁.registry])]
    exact (hold id' t ht).2

/-- A table that is made is none of those that are there. -/
theorem ne_of_fresh {id id' : Nat} (hid : w.table? id = none) (hid' : ∃ t, w.table? id' = some t) :
    id ≠ id' := by
  rintro rfl
  obtain ⟨t, ht⟩ := hid'
  exact absurd (hid.symm.trans ht) (by simp)

/-- Different tables that are there. -/
structure Distinct (w : World) (ids : List Nat) : Prop where
  nodup : ids.Nodup
  there : ∀ id ∈ ids, ∃ t, w.table? id = some t

/-- Another table is made. -/
theorem Distinct.cons {ids : List Nat} {w' : World} {id : Nat} (h : Distinct w ids)
    (hw : w.Prepares P w') (hfresh : w.table? id = none) (hnew : ∃ t, w'.table? id = some t) :
    Distinct w' (id :: ids) where
  nodup := List.nodup_cons.2 ⟨fun hid ↦ ne_of_fresh hfresh (h.there id hid) rfl, h.nodup⟩
  there id' hid' := by
    rcases List.mem_cons.1 hid' with rfl | hid'
    · exact hnew
    · obtain ⟨t, ht⟩ := h.there id' hid'
      exact hw.there ht

/-- What is known after the table of the cache has been made. -/
structure Cached (cache : Nat) (w w' : World) : Prop where
  fresh : w.table? cache = none
  weakened : w'.Weakened cache
  strong : w'.Strong
  links : w'.Links "bind.cache" cache

/-- The table of the cache is made, given weak values, and put into the registry of the machine. -/
theorem builds_createCache {β : Type} (hw : w.Ready P) (hid : w.binding.machine.registry ∉ P)
    (hstrong : w.Strong) {f : Nat → Exec β} {Q : β → World → Prop}
    (hf : ∀ cache w', w.Prepares P w' → Cached cache w w' → Builds P (f cache) Q w') :
    Builds P (do
      let cache ← createTable
      let weakMode ← createTable
      let mode ← intern "v"
      rawSetField weakMode "__mode" mode
      let m ← machine
      let m ← ofExcept (m.setMetatable (.table cache) (some weakMode))
      modifyMachine fun _ ↦ m
      setRegistryTable "bind.cache" cache
      f cache) Q w := by
  obtain ⟨troot, hroot, hrootStrong⟩ := hstrong
  refine (builds_createTable hw).bind fun cache w₁ h₁ hnew ↦ ?_
  obtain ⟨hfresh, hcache, hold₁⟩ := hnew
  refine (builds_createTable h₁.ready).bind fun weakMode w₂ h₂ hnew ↦ ?_
  obtain ⟨hfresh₂, hmode, hold₂⟩ := hnew
  refine (builds_intern h₂.ready "v").bind fun mode w₃ h₃ hv ↦ ?_
  obtain ⟨⟨v, rfl, hv⟩, htables₃⟩ := hv
  have hmodeP : weakMode ∉ P := h₁.ready.not_mem hfresh₂
  refine (builds_rawSetField h₃.ready hmodeP "__mode" (.string v)).bind fun _ w₄ h₄ hset ↦ ?_
  obtain ⟨⟨tmode, k, -, hk, hset⟩, htables₄⟩ := hset
  have hold : ∀ {id t}, w.table? id = some t → w₄.table? id = some t := fun {id t} ht ↦ by
    have ht₂ := (hold₂ id t (hold₁ id t ht).2)
    rw [htables₄ id ht₂.1, htables₃, ht₂.2]
  have hcache₄ : w₄.table? cache = some {} := by
    have hcache₂ := hold₂ cache _ hcache
    rw [htables₄ cache hcache₂.1, htables₃, hcache₂.2]
  have hregistry₄ : w₄.binding.machine.registry = w.binding.machine.registry := by
    rw [h₄.registry, h₃.registry, h₂.registry, h₁.registry]
  have hget : (tmode.set (.string k) (.string v)).get (.string k) = .string v := by
    rw [Table.get_set, if_pos rfl]
  have hweaken := builds_weaken (P := P) h₄.ready hcache₄ Table.references_empty
    (hw.not_mem hfresh) hset hk (h₄.text hv) hget
  have hassoc : (do
      let m ← machine
      let m ← ofExcept (m.setMetatable (.table cache) (some weakMode))
      modifyMachine fun _ ↦ m
      setRegistryTable "bind.cache" cache
      f cache) = (do
        let m ← machine
        let m ← ofExcept (m.setMetatable (.table cache) (some weakMode))
        modifyMachine fun _ ↦ m) >>= fun _ ↦ setRegistryTable "bind.cache" cache >>= fun _ ↦
          f cache := by
    simp only [bind_assoc]
  rw [hassoc]
  refine hweaken.bind fun _ w₅ h₅ hweak ↦ ?_
  obtain ⟨hweakened, htables₅⟩ := hweak
  have hregistry₅ := h₅.registry.trans hregistry₄
  have hne : cache ≠ w₅.binding.machine.registry := by
    rw [hregistry₅]
    exact ne_of_fresh hfresh ⟨_, hroot⟩
  have hstrong₅ : w₅.Strong :=
    ⟨troot, by rw [htables₅ _ hne.symm, hregistry₅, hold hroot], hrootStrong⟩
  refine (builds_link h₅.ready (by rwa [hregistry₅]) hstrong₅ "bind.cache" cache).bind
    fun _ w₆ h₆ hlinked ↦ ?_
  obtain ⟨hlinks, hstrong₆, -, hothers⟩ := hlinked
  obtain ⟨t, ht, hweak⟩ := hweakened
  exact hf cache w₆ (((((h₁.trans h₂).trans h₃).trans h₄).trans h₅).trans h₆)
    ⟨hfresh, ⟨t, (hothers cache hne).trans ht, hweak⟩, hstrong₆, hlinks⟩

/-- The table of the cache stays weakened when another table is linked. -/
theorem Linked.weakened {w' : World} {name : String} {id cache : Nat} (h : Linked name id w w')
    (hne : cache ≠ w.binding.machine.registry) (hw : w.Weakened cache) : w'.Weakened cache := by
  obtain ⟨t, ht, hweak⟩ := hw
  exact ⟨t, h.kept hne ht, hweak⟩

/-- **The tables of the bridge**: that of the cache is weakened and linked, and the others are other
tables. -/
theorem builds_createBridgeTables
    (hw : w.Ready {w.binding.machine.globals}) (hstrong : w.Strong)
    (hne : w.binding.machine.registry ≠ w.binding.machine.globals) :
    Builds {w.binding.machine.globals} createBridgeTables
      (fun t w' ↦ w'.Outfitted t ∧ w'.Strong) w := by
  have hnot : ∀ {w₁}, w.Prepares {w.binding.machine.globals} w₁ →
      w₁.binding.machine.registry ∉ ({w.binding.machine.globals} : Set Nat) := fun h ↦ by
    rw [h.registry]
    exact hne
  have hbegin : Distinct w [w.binding.machine.registry, w.binding.machine.globals] := by
    obtain ⟨t, ht, -⟩ := hstrong
    refine ⟨by simpa using hne, fun id hid ↦ ?_⟩
    rcases List.mem_pair.1 hid with rfl | rfl
    · exact ⟨t, ht⟩
    · exact hw.there _ rfl
  refine builds_createLinked hw hne hstrong fun types w₁ h₁ hl₁ ↦ ?_
  refine builds_createCache h₁.ready (hnot h₁) hl₁.strong fun cache w₂ h₂ hc ↦ ?_
  have h₂' := h₁.trans h₂
  refine builds_createLinked h₂.ready (hnot h₂') hc.strong fun pinned w₃ h₃ hl₃ ↦ ?_
  have h₃' := h₂'.trans h₃
  refine builds_createLinked h₃.ready (hnot h₃') hl₃.strong fun containers w₄ h₄ hl₄ ↦ ?_
  have h₄' := h₃'.trans h₄
  refine builds_createLinked h₄.ready (hnot h₄') hl₄.strong fun cursors w₅ h₅ hl₅ ↦ ?_
  have h₅' := h₄'.trans h₅
  -- each table is made when the ones before it are there
  have hcache : ∃ t, w₂.table? cache = some t := by
    obtain ⟨t, ht, -⟩ := hc.weakened
    exact ⟨t, ht⟩
  have hdistinct := ((((hbegin.cons h₁ hl₁.fresh ⟨_, hl₁.empty⟩).cons h₂ hc.fresh hcache).cons h₃
    hl₃.fresh ⟨_, hl₃.empty⟩).cons h₄ hl₄.fresh ⟨_, hl₄.empty⟩).cons h₅ hl₅.fresh ⟨_, hl₅.empty⟩
  have hnodup := hdistinct.nodup
  simp only [List.nodup_cons, List.mem_cons, List.not_mem_nil, or_false, not_or] at hnodup
  obtain ⟨hcursors, hcontainers, hpinned, hcacheNe, htypes, -⟩ := hnodup
  have hweak₃ := hl₃.weakened (by rw [h₂'.registry]; exact hcacheNe.2.1) hc.weakened
  have hweak₄ := hl₄.weakened (by rw [h₃'.registry]; exact hcacheNe.2.1) hweak₃
  have hweak₅ := hl₅.weakened (by rw [h₄'.registry]; exact hcacheNe.2.1) hweak₄
  have hlinks₃ := hl₃.links _ _ (by decide) hc.links
  have hlinks₄ := hl₄.links _ _ (by decide) hlinks₃
  have hlinks₅ := hl₅.links _ _ (by decide) hlinks₄
  have hpinned₄ := hl₄.kept (by rw [h₃'.registry]; exact hpinned.2.2.1) hl₃.empty
  have hpinned₅ := hl₅.kept (by rw [h₄'.registry]; exact hpinned.2.2.1) hpinned₄
  have hlinked₅ := hl₅.links _ _ (by decide) (hl₄.links _ _ (by decide) hl₃.linked)
  refine builds_pure h₅.ready ⟨⟨hweak₅, hlinks₅, ?_, fun id hid ↦ ?_, ?_, ⟨hpinned₅, hlinked₅⟩, ?_,
    fun id hid ↦ hdistinct.there id ?_⟩, hl₅.strong⟩
  · rw [h₅'.registry, h₅'.globals]
    exact hcacheNe.2
  · rw [h₅'.registry, h₅'.globals]
    grind
  · grind
  · grind
  · grind

/-! ### The functions of types, containers and packed words -/

theorem builds_rawSetPosition (hw : w.Ready P) {id : Nat} (hid : id ∉ P) (n : Int) (v : Value) :
    Builds P (modifyMachine (·.rawSetPosition id n v)) (fun _ w' ↦
      (∀ t, w.table? id = some t → w'.table? id = some (t.set (.integer n) v)) ∧
        ∀ id', id' ≠ id → w'.table? id' = w.table? id') w := by
  have hget : ∀ id', (w.binding.machine.heap.modifyTable id fun t ↦
      t.set (.integer n) v).tables.get? id' = if id = id' then (w.table? id').map fun t ↦
        t.set (.integer n) v else w.table? id' := fun id' ↦ SlotStore.get?_modify _ _ _ _
  refine ⟨prepares_modifyTable hw hid _, fun t ht ↦ ?_, fun id' hne ↦ ?_⟩
  · refine (hget id).trans ?_
    rw [if_pos rfl, ht]
    rfl
  · exact (hget id').trans (if_neg fun e ↦ hne e.symm)

/-- A type is given a metatable. -/
theorem builds_createTypeMetatable (hw : w.Ready P) {types : Nat} (hid : types ∉ P)
    (d : Descriptor) : Builds P (createTypeMetatable types d) (fun _ _ ↦ True) w := by
  refine (builds_createTable hw).bind fun mt w₁ h₁ hnew ↦ ?_
  have hmt : mt ∉ P := hw.not_mem hnew.1
  refine (builds_setName h₁.ready hmt d.name).bind fun _ w₂ h₂ _ ↦ ?_
  refine (builds_setBuiltins h₂.ready hmt _).bind fun _ w₃ h₃ _ ↦ ?_
  rw [Builds, ends_bind, ends_registry]
  refine (builds_forM h₃.ready fun (entry : String × Callable) _ w₄ h₄ ↦
    builds_setFunction h₄.ready hmt entry.1 entry.2).bind fun _ w₄ h₄ _ ↦ ?_
  exact (builds_rawSetPosition h₄.ready hid _ _).imp fun _ _ _ _ ↦ trivial

theorem builds_fillContainerMetatables (hw : w.Ready P) (t : BridgeTables)
    (hcontainer : t.containerMetatable ∉ P) (hcursor : t.cursorMetatable ∉ P) :
    Builds P (fillContainerMetatables t) (fun _ _ ↦ True) w := by
  refine (builds_setName hw hcontainer _).bind fun _ w₁ h₁ _ ↦ ?_
  refine (builds_setBuiltins h₁.ready hcontainer _).bind fun _ w₂ h₂ _ ↦ ?_
  exact builds_setName h₂.ready hcursor _

/-- Packed words are given another metatable. -/
theorem prepares_light (hw : w.Ready P) (hnot : w.binding.machine.registry ∉ P) (mt : Nat) :
    w.Prepares P { w with binding.machine.lightMetatable := some mt } :=
  ⟨⟨hw.tables, hw.functions, hw.strings, hw.there⟩, rfl, rfl, rfl, rfl, rfl, rfl, fun h ↦ h,
    fun h ↦ h, fun {_ t} ht ↦ ⟨t, ht⟩, fun _ ↦ rfl, fun hmem ↦ absurd hmem hnot⟩

/-- Packed words are given a metatable; what is linked under another name stays linked. -/
theorem builds_createLightMetatable (hw : w.Ready P) (hid : w.binding.machine.registry ∉ P)
    (hstrong : w.Strong) :
    Builds P createLightMetatable (fun _ w' ↦ ∀ name table, name ≠ "bind.light_meta" →
      w.Links name table → w'.Links name table) w := by
  have hmem : w.binding.machine.registry ∈ insert w.binding.machine.registry P :=
    Set.mem_insert _ _
  have hsub : P ⊆ insert w.binding.machine.registry P := Set.subset_insert _ _
  have hroot : w.Ready (insert w.binding.machine.registry P) := by
    obtain ⟨t, ht, -⟩ := hstrong
    exact hw.insert ht
  refine ((builds_createTable hroot).mono hsub).bind fun mt w₁ _ hnew ↦ ?_
  obtain ⟨h₁, hfresh, -⟩ := hnew
  have hmt := hroot.not_mem hfresh
  refine ((builds_setName h₁.ready hmt _).mono hsub).bind fun _ w₂ _ h₂ ↦ ?_
  have h₂' := h₁.trans h₂.1
  refine ((builds_setBuiltins h₂'.ready hmt _).mono hsub).bind fun _ w₃ _ h₃ ↦ ?_
  have h₃' := h₂'.trans h₃.1
  refine (builds_link (h₃'.ready.mono hsub) (by rwa [h₃'.registry]) (h₃'.strong hmem hstrong)
    "bind.light_meta" mt).bind fun _ w₄ h₄ hlinked ↦ ?_
  have hnot : w₄.binding.machine.registry ∉ P := by rwa [h₄.registry, h₃'.registry]
  exact ⟨prepares_light h₄.ready hnot mt, fun name table hne hlinks ↦
    hlinked.2.2.1 name table hne (h₃'.links hmem hlinks)⟩

/-! ### The library -/

/-- The stack is changed. -/
theorem prepares_stack (hw : w.Ready P) {m : Machine} (hheap : m.heap = w.binding.machine.heap)
    (hregistry : m.registry = w.binding.machine.registry)
    (hglobals : m.globals = w.binding.machine.globals)
    (hlight : m.lightMetatable = w.binding.machine.lightMetatable) :
    w.Prepares P { w with binding.machine := m } := by
  have htable : ∀ id, ({ w with binding.machine := m } : World).table? id = w.table? id := fun id ↦ by
    rw [World.table?, World.table?, hheap]
  refine ⟨⟨?_, ?_, ?_, fun id hid ↦ ?_⟩, rfl, rfl, rfl, hregistry, hglobals, congrArg Heap.userdata hheap,
    fun ht ↦ ?_, fun hf ↦ ?_, fun {_ t} ht ↦ ⟨t, (htable _).trans ht⟩, fun _ ↦ htable _, fun _ ↦ hlight⟩
  · rw [hheap]
    exact hw.tables
  · rw [hheap]
    exact hw.functions
  · rw [hheap]
    exact hw.strings
  · rw [htable]
    exact hw.there id hid
  · rwa [World.text?, hheap]
  · rwa [World.function?, hheap]

theorem rawGet_empty (k : Value) : (({} : Table)).rawGet k = .nil := by
  rw [Table.rawGet]
  cases k.key? with
  | none => rfl
  | some k => exact congrArg (Option.getD · _) (Dict.find?_empty k)

/-- An empty table without a metatable has no members. -/
theorem builds_index_empty (hw : w.Ready P) {id : Nat} (ht : w.table? id = some {}) (run : Runner)
    (k : Value) : Builds P (index run (.table id) k) (fun v _ ↦ v = .nil) w := by
  have hget : w.binding.machine.heap.tables.get? id = some {} := ht
  rw [Builds, index, maxChain, indexFrom, ends_bind, ends_machine]
  simp only [Heap.rawGet, hget, rawGet_empty, Value.isNil, Bool.not_true, Bool.false_eq_true,
    if_false, Machine.metafield, Machine.metatable?, Heap.metatable?, Option.bind_some]
  exact builds_pure hw rfl

/-- A path from an empty table leads nowhere. -/
theorem builds_followNames_empty (hw : w.Ready P) {id : Nat} (ht : w.table? id = some {})
    (run : Runner) {names : List String} (hn : names ≠ []) :
    Builds P (followNames run names (.table id)) (fun v _ ↦ v = .nil) w := by
  cases names with
  | nil => exact absurd rfl hn
  | cons name rest =>
    refine (builds_intern hw name).bind fun k w₁ h₁ hk ↦ ?_
    refine (builds_index_empty h₁.ready ((hk.2 id).trans ht) run k).bind fun v w₂ h₂ hv ↦ ?_
    subst hv
    cases rest with
    | nil => exact builds_pure h₂.ready rfl
    | cons _ _ => exact builds_pure h₂.ready rfl

theorem pathNames_ne_nil (name rest : List Char) : pathNames name rest ≠ [] := by
  induction rest generalizing name with
  | nil => exact List.cons_ne_nil _ _
  | cons c rest ih =>
    rw [pathNames]
    split
    · exact List.cons_ne_nil _ _
    · exact ih _

/-- An empty table without a metatable takes on what is written. -/
theorem builds_newIndex_empty (hw : w.Ready P) {id : Nat} (hid : id ∉ P)
    (ht : w.table? id = some {}) (run : Runner) (k v : Value) :
    Builds P (newIndex run (.table id) k v) (fun _ _ ↦ True) w := by
  have hget : w.binding.machine.heap.tables.get? id = some {} := ht
  have hlive : w.binding.machine.heap.tables.live id = true := (SlotStore.live_iff _).2 ⟨_, ht⟩
  rw [Builds, newIndex, maxChain, newIndexFrom, ends_bind, ends_machine]
  simp only [hget, Value.isNil, Machine.metafield, Machine.metatable?, Heap.metatable?,
    Option.bind_some, Bool.true_or, if_true, ends_bind, rawSet, ends_machine, Machine.rawSet, hlive]
  cases k.key? with
  | none => exact trivial
  | some key => exact ⟨prepares_modifyTable hw hid _, trivial⟩

theorem builds_popValue (hw : w.Ready P) :
    Builds P popValue (fun v w' ↦ v = w.binding.machine.popValue.1 ∧
      ∀ id, w'.table? id = w.table? id) w := by
  have hpop : ∀ m : Machine, m.popValue.2.heap = m.heap ∧ m.popValue.2.registry = m.registry ∧
      m.popValue.2.globals = m.globals ∧ m.popValue.2.lightMetatable = m.lightMetatable := fun m ↦ by
    rw [Machine.popValue]
    split <;> exact ⟨rfl, rfl, rfl, rfl⟩
  obtain ⟨hheap, hregistry, hglobals, hlight⟩ := hpop w.binding.machine
  refine ⟨prepares_stack hw hheap hregistry hglobals hlight, rfl, fun id ↦ ?_⟩
  show w.binding.machine.popValue.2.heap.tables.get? id = _
  rw [hheap]
  rfl

/-- Nil is taken off a stack that nil has been pushed on. -/
theorem popValue_push_nil (m : Machine) : (m.push .nil).popValue.1 = .nil := by
  rw [Machine.popValue]
  split
  · rfl
  · show ((m.stack.push .nil).back?).getD .nil = .nil
    rw [Array.back?_push, Option.getD_some]

/-- Where there are no globals yet, a value can be stored under a single name; any other path fails. -/
theorem builds_setGlobal (hw : w.Ready P) (hid : w.binding.machine.globals ∉ P)
    (ht : w.table? w.binding.machine.globals = some {}) (run : Runner) (path : String) :
    Builds P (setGlobal run path) (fun _ _ ↦ True) w := by
  refine (builds_popValue hw).bind fun v w₁ h₁ hpop ↦ ?_
  rcases splitGlobal path with ⟨above, name⟩
  have ht₁ : w₁.table? w₁.binding.machine.globals = some {} := by
    rw [h₁.globals, hpop.2, ht]
  rw [Builds, ends_bind, ends_machine]
  cases above with
  | some above =>
    -- the path above the last name leads to nil
    have hload : Builds P (loadGlobal run above *> popValue) (fun v _ ↦ v = .nil) w₁ := by
      rw [seqRight_eq_bind, loadGlobal, bind_assoc]
      rw [Builds, ends_bind, ends_machine, bind_assoc]
      refine (builds_followNames_empty h₁.ready ht₁ run (pathNames_ne_nil _ _)).bind
        fun v w₂ h₂ hv ↦ ?_
      subst hv
      have h₃ : w₂.Prepares P { w₂ with binding.machine := w₂.binding.machine.push .nil } :=
        prepares_stack h₂.ready rfl rfl rfl rfl
      rw [Builds, ends_bind, ends_push]
      refine Ends.imp (builds_popValue h₃.ready) (fun v w₄ h ↦ ⟨h₃.trans h.1, ?_⟩) fun _ _ h ↦ h
      rw [h.2.1]
      exact popValue_push_nil _
    refine hload.bind fun v w₂ h₂ hv ↦ ?_
    subst hv
    exact trivial
  | none =>
    show Builds P (intern name >>= fun k ↦
      newIndex run (.table w₁.binding.machine.globals) k v) (fun _ _ ↦ True) w₁
    refine (builds_intern h₁.ready name).bind fun k w₂ h₂ hk ↦ ?_
    refine builds_newIndex_empty h₂.ready ?_ ((hk.2 _).trans ht₁) run k v
    rwa [h₁.globals]

theorem builds_createLibrary (hw : w.Ready P) (hid : w.binding.machine.globals ∉ P)
    (ht : w.table? w.binding.machine.globals = some {}) (run : Runner) (path : String) :
    Builds P (createLibrary run path) (fun _ _ ↦ True) w := by
  have hready : w.Ready (insert w.binding.machine.globals P) := hw.insert ht
  have hsub : P ⊆ insert w.binding.machine.globals P := Set.subset_insert _ _
  refine ((builds_createTable hready).mono hsub).bind fun library w₁ _ hnew ↦ ?_
  obtain ⟨h₁, hfresh, -⟩ := hnew
  refine ((builds_setBuiltins h₁.ready (hready.not_mem hfresh) _).mono hsub).bind
    fun _ w₂ _ h₂ ↦ ?_
  have h₂' := h₁.trans h₂.1
  have h₃ : w₂.Prepares (insert w.binding.machine.globals P)
      { w₂ with binding.machine := w₂.binding.machine.push (.table library) } :=
    prepares_stack h₂'.ready rfl rfl rfl rfl
  have h₃' := h₂'.trans h₃
  rw [Builds, ends_bind, ends_push]
  refine Ends.imp (builds_setGlobal (P := P) (h₃'.ready.mono hsub) ?_ ?_ run path)
    (fun _ _ h ↦ ⟨(h₃.mono hsub).trans h.1, trivial⟩) fun _ _ h ↦ h
  · rwa [h₃'.globals]
  · rw [h₃'.globals, h₃'.kept (Set.mem_insert _ _), ht]

/-! ### A prepared machine -/

/-- **The library leaves alone what is linked**, the tables of the cache and of the pinned objects among
it. -/
theorem builds_createLibrary_links {cache pinned : Nat} (hw : w.Ready {cache, pinned})
    (hcache : w.Links "bind.cache" cache) (hpinned : w.Links "bind.objs" pinned)
    (hne : w.binding.machine.globals ∉ ({w.binding.machine.registry, cache, pinned} : Set Nat))
    (hglobals : w.table? w.binding.machine.globals = some {}) (run : Runner) (path : String) :
    Builds {cache, pinned} (createLibrary run path)
      (fun _ w' ↦ w'.Links "bind.cache" cache ∧ w'.Links "bind.objs" pinned) w := by
  have ⟨troot, _, hroot, _⟩ := hcache
  refine Builds.imp ((builds_createLibrary (hw.insert hroot) hne hglobals run path).mono
    (Set.subset_insert _ _)) fun _ w' _ h ↦ ?_
  exact ⟨h.1.links (by simp) hcache, h.1.links (by simp) hpinned⟩

/-- **Once the tables of the bridge are made, the tables of the cache and of the pinned objects are left
alone** and stay linked. -/
theorem builds_setupTables {t : BridgeTables} {Q : Set Nat}
    (hQ : Q = {t.cache, t.pinned, w.binding.machine.registry, w.binding.machine.globals})
    (hw : w.Ready Q) (hout : w.Outfitted t) (hstrong : w.Strong)
    (hglobals : w.table? w.binding.machine.globals = some {})
    (hne : w.binding.machine.registry ≠ w.binding.machine.globals) (run : Runner)
    (types : List Descriptor) (light : Bool) (path : String) :
    Builds {t.cache, t.pinned} (do
        types.forM (createTypeMetatable t.typeMetatables)
        fillContainerMetatables t
        if light then createLightMetatable
        createLibrary run path)
      (fun _ w' ↦ w'.Links "bind.cache" t.cache ∧ w'.Links "bind.objs" t.pinned) w := by
  have hkept : {t.cache, t.pinned} ⊆ Q := by simp [hQ, Set.insert_subset_iff]
  have hregistry : w.binding.machine.registry ∈ Q := by simp [hQ]
  have hglobals' : w.binding.machine.globals ∈ Q := by simp [hQ]
  have hpinned := hout.apart t.pinned (by simp)
  have hother : ∀ id ∈ [t.typeMetatables, t.containerMetatable, t.cursorMetatable], id ∉ Q :=
    fun id hid ↦ hQ ▸ hout.not_mem hid
  refine ((builds_forM hw fun d _ w₁ h₁ ↦
    builds_createTypeMetatable h₁.ready (hother _ (by simp)) d).mono hkept).bind
      fun _ w₁ _ h₁ ↦ ?_
  refine ((builds_fillContainerMetatables h₁.1.ready t (hother _ (by simp))
    (hother _ (by simp))).mono hkept).bind fun _ w₂ _ h₂ ↦ ?_
  have h₂' := h₁.1.trans h₂.1
  have hlinks₂ := h₂'.links hregistry hout.links
  have hpinned₂ := h₂'.links hregistry hout.pinned.2
  -- the library needs the registry of the machine to be left alone, the words need the globals to be
  have hlibrary : ∀ {w₃ : World}, w₂.Prepares {t.cache, t.pinned, w.binding.machine.globals} w₃ →
      w₃.Links "bind.cache" t.cache → w₃.Links "bind.objs" t.pinned →
      Builds {t.cache, t.pinned} (createLibrary run path)
        (fun _ w' ↦ w'.Links "bind.cache" t.cache ∧ w'.Links "bind.objs" t.pinned) w₃ :=
    fun {w₃} h₃ hlinks hlinks' ↦ by
      refine builds_createLibrary_links (h₃.ready.mono (by simp [Set.insert_subset_iff])) hlinks
        hlinks' ?_ ?_ run path
      · rw [h₃.globals, h₂'.globals, h₃.registry, h₂'.registry]
        simp [hout.cache_ne.2.symm, hpinned.2.2.symm, hne.symm]
      · rw [h₃.globals, h₂'.globals, h₃.kept (by simp), h₂'.kept hglobals', hglobals]
  have hready : w₂.Ready {t.cache, t.pinned, w.binding.machine.globals} :=
    h₂'.ready.mono (by simp [hQ, Set.insert_subset_iff])
  cases light with
  | false => exact hlibrary (.refl hready) hlinks₂ hpinned₂
  | true =>
    have hnot : w₂.binding.machine.registry ∉
        ({t.cache, t.pinned, w.binding.machine.globals} : Set Nat) := by
      rw [h₂'.registry]
      simp [hout.cache_ne.1.symm, hpinned.2.1.symm, hne]
    refine ((builds_createLightMetatable hready hnot (h₂'.strong hregistry hstrong)).mono
      (by simp [Set.insert_subset_iff])).bind fun _ w₃ _ h₃ ↦ ?_
    exact hlibrary h₃.1 (h₃.2 _ _ (by decide) hlinks₂) (h₃.2 _ _ (by decide) hpinned₂)

end Exec

namespace World

variable {R : Realm} {w : World}

/-- A world with a new machine and without entries in its cache. -/
structure Fresh (R : Realm) (w : World) : Prop where
  anchored : w.host.Anchored R
  registry : R.registry w.binding.domain = w.binding.registry
  isSome_weakTable? : (w.host.weakTable? w.binding.domain).isSome = true
  machine : w.binding.machine = .initial
  cache : w.binding.cache = {}

/-- There are no records, and nothing is remembered. -/
structure Blank (w : World) : Prop where
  record? : ∀ id, w.record? id = none
  cache : w.binding.cache = {}

theorem Blank.not_remembers (hw : w.Blank) (k : CacheKey) (id : Nat) : ¬ w.Remembers k id := by
  rintro ⟨e, he, -⟩
  have he' : w.binding.cache.find? k = some e := he
  rw [hw.cache, IdentityCache.find?_empty] at he'
  exact absurd he' (by simp)

end World

namespace Exec

variable {R : Realm} {w : World}

theorem ready_initial (hmachine : w.binding.machine = .initial) :
    w.Ready {w.binding.machine.globals} ∧ w.Strong ∧
      w.table? w.binding.machine.globals = some {} ∧
      w.binding.machine.registry ≠ w.binding.machine.globals := by
  have hglobals : w.table? w.binding.machine.globals = some {} := by
    rw [World.table?, hmachine]
    rfl
  refine ⟨⟨?_, ?_, ?_, fun id hid ↦ ⟨{}, (Set.mem_singleton_iff.1 hid) ▸ hglobals⟩⟩, ⟨{}, ?_, rfl⟩,
    hglobals, ?_⟩
  · rw [hmachine]
    exact (SlotStore.sound_empty.insert _).insert _
  · rw [hmachine]
    exact SlotStore.sound_empty
  · rw [hmachine]
    exact StringPool.consistent_empty
  · rw [World.table?, hmachine]
    rfl
  · rw [hmachine]
    decide

/-- **What a preparation comes to**: the tables of the bridge are made, and from then on those of the cache
and of the pinned objects are left alone and stay linked. -/
theorem ends_setup_outfits (hmachine : w.binding.machine = .initial) (run : Runner) :
    Ends (setup run) (fun _ w' ↦ ∃ (t : BridgeTables) (w₁ : World),
      w.Prepares {w.binding.machine.globals} w₁ ∧ w₁.Outfitted t ∧
        World.Prepares {t.cache, t.pinned} { w₁ with binding.tables := t } w' ∧
        w'.Links "bind.cache" t.cache ∧ w'.Links "bind.objs" t.pinned) (fun _ _ ↦ True) w := by
  obtain ⟨hready, hstrong, hglobals, hne⟩ := ready_initial hmachine
  rw [setup, ends_bind]
  refine Ends.imp (builds_createBridgeTables hready hstrong hne) (fun t w₁ h ↦ ?_) fun _ _ h ↦ h
  obtain ⟨h₁, hout, hstrong₁⟩ := h
  rw [ends_bind, ends_modify, ends_bind, ends_binding]
  have hready₁ : World.Ready {t.cache, t.pinned, w₁.binding.machine.registry,
      w₁.binding.machine.globals} { w₁ with binding.tables := t } := by
    obtain ⟨tcache, hcache, -⟩ := hout.weakened
    obtain ⟨troot, hroot, -⟩ := hstrong₁
    obtain ⟨htables, hfunctions, hstrings, hthere⟩ :=
      h₁.globals ▸ ((h₁.ready.insert hroot).insert hout.pinned.1).insert hcache
    exact ⟨htables, hfunctions, hstrings, hthere⟩
  have hglobals₁ : w₁.table? w₁.binding.machine.globals = some {} := by
    rw [h₁.globals, h₁.kept rfl, hglobals]
  have hne₁ : w₁.binding.machine.registry ≠ w₁.binding.machine.globals := by
    rwa [h₁.registry, h₁.globals]
  exact Ends.imp (builds_setupTables (w := { w₁ with binding.tables := t }) rfl hready₁ hout.tables
    hstrong₁ hglobals₁ hne₁ run _ _ _) (fun _ w' h ↦ ⟨t, w₁, h₁, hout, h⟩) fun _ _ h ↦ h

/-- **A machine that has been prepared is in order**, without records as yet, and the host has not
changed. -/
theorem ends_setup (hw : w.Fresh R) (run : Runner) :
    Ends (setup run) (fun _ w' ↦ w'.Sound R ∧ w'.Blank ∧ w'.host = w.host) (fun _ _ ↦ True) w := by
  refine (ends_setup_outfits hw.machine run).imp (fun _ w' h ↦ ?_) fun _ _ h ↦ h
  obtain ⟨t, w₁, h₁, hout, h', ⟨troot, k, hroot, hrootStrong, -, hfind⟩, -⟩ := h
  obtain ⟨tcache, hcache, hweak, hrefs⟩ := hout.weakened
  have hcache' : w'.table? t.cache = some tcache := (h'.kept (by simp)).trans hcache
  have hhost : w'.host = w.host := h'.host.trans h₁.host
  have huserdata : w'.binding.machine.heap.userdata = {} := by
    rw [h'.userdata]
    show w₁.binding.machine.heap.userdata = {}
    rw [h₁.userdata, hw.machine]
    rfl
  have hnone : ∀ id, w'.binding.machine.record? id = none := fun id ↦ by
    rw [Machine.record?, huserdata]
    rfl
  have hbinding : w'.binding = { w.binding with
      machine := w'.binding.machine, tables := t } := by
    rw [h'.binding]
    show ({ { w₁.binding with tables := t } with machine := w'.binding.machine } : Binding) = _
    rw [h₁.binding]
  have htables : w'.binding.tables = t := by rw [hbinding]
  have hpinned := hout.apart t.pinned (by simp)
  refine ⟨⟨hhost ▸ hw.anchored, ?_, ?_, ?_, fun {id r} hr ↦ ?_, fun {id r _} hr ↦ ?_,
    ⟨tcache, by rw [htables]; exact hcache', hweak⟩,
    ⟨troot, _, hroot, hrootStrong, by rw [htables]; exact hfind⟩, ?_, ?_, ?_⟩,
    ⟨hnone, by rw [hbinding]; exact hw.cache⟩, hhost⟩
  · rw [hbinding]
    exact hw.registry
  · rw [hbinding, hhost]
    exact hw.isSome_weakTable?
  · rw [huserdata]
    exact SlotStore.sound_empty
  · exact absurd ((hnone id).symm.trans hr) (by simp)
  · exact absurd ((hnone id).symm.trans hr) (by simp)
  · rw [htables]
    exact hpinned.1
  · rw [htables, h'.registry]
    exact hpinned.2.1
  · have hshelf : w'.binding.shelf = ⟨tcache, w'.binding.machine.record?, {}⟩ := by
      have hget : w'.binding.machine.heap.tables.get? w'.binding.tables.cache = some tcache := by
        rw [htables]
        exact hcache'
      rw [Binding.shelf, hget, Option.getD_some, hbinding, hw.cache]
    rw [hshelf]
    exact Shelf.sound_empty hrefs _

theorem sound_of_setup (hw : w.Fresh R) {run : Runner} {w' : World}
    (h : (setup run).outcome w = (.ok (), w')) : w'.Sound R ∧ w'.Blank ∧ w'.host = w.host :=
  (ends_setup hw run).ok h

end Exec

end ObjectBridge
