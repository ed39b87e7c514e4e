import ObjectBridge.Proofs.Metatables

/-!
# Equipping a machine

A machine is equipped when it is prepared (`Exec.ends_setup_equips`): every exported type is given a
metatable of its own with the functions of its line, and so are packed words, and none of these tables
is touched again by what comes after it.
-/

namespace ObjectBridge

/-- The types of a registry are numbered in order. -/
theorem Registry.Sound.map_id_types {r : Registry} (hr : r.Sound) :
    r.types.toList.map (·.id) = List.range r.types.size := by
  refine List.ext_getElem (by simp) fun i hi _ ↦ ?_
  have hlt : i < r.types.size := by simpa using hi
  simpa using hr.id_eq (show r.get? i = some r.types[i] from Array.getElem?_eq_getElem hlt)

namespace World

variable {P : Set Nat} {w w' : World}

/-- The tables of a machine but for some of them. -/
def tablesBut (w : World) (A : Set Nat) : Set Nat :=
  {id | id ∉ A ∧ ∃ t, w.table? id = some t}

theorem Ready.tablesBut (hw : w.Ready P) (A : Set Nat) : w.Ready (w.tablesBut A) :=
  ⟨hw.tables, hw.functions, hw.strings, fun _ hid ↦ hid.2⟩

/-- A table that was there is there, and it is what it was if it is none of those that may change. -/
theorem Prepares.tablesBut_subset (h : w.Prepares P w') (A : Set Nat) :
    w.tablesBut A ⊆ w'.tablesBut A := by
  rintro id ⟨hid, t, ht⟩
  exact ⟨hid, h.there ht⟩

/-- A table without functions has none to offer. -/
theorem stocks_name (w : World) (k v : Nat) :
    w.Stocks (({} : Table).set (.string k) (.string v)) [] where
  there hc := absurd hc (by simp [offered])
  only {k' id} hget := by
    rw [Table.get_set] at hget
    split at hget
    · exact absurd hget (by simp)
    · rw [Table.get] at hget
      exact absurd hget (by simp [Dict.find?_empty])

/-- A function is put under a name. -/
theorem Stocks.set {t : Table} {entries : List (String × Callable)} (h : w.Stocks t entries)
    {k id : Nat} {name : String} {f : Function} (hk : w.text? k = some name)
    (hid : w.function? id = some f) :
    w.Stocks (t.set (.string k) (.function id)) (entries ++ [(name, f.callable)]) where
  there {name' c} hc := by
    rw [offered_concat] at hc
    split at hc
    · rename_i hname
      subst hname
      exact ⟨k, id, f, hk, by rw [Table.get_set, if_pos rfl], hid, Option.some.inj hc⟩
    · rename_i hname
      obtain ⟨k', id', f', hk', hget, hf', hcallable⟩ := h.there hc
      refine ⟨k', id', f', hk', ?_, hf', hcallable⟩
      rw [Table.get_set, if_neg]
      · exact hget
      · rintro heq
        rw [Key.string.injEq] at heq
        subst heq
        exact hname (Option.some.inj (hk'.symm.trans hk))
  only {k' id'} hget := by
    rw [Table.get_set] at hget
    split at hget
    · rename_i heq
      rw [Key.string.injEq] at heq
      subst heq
      exact ⟨name, hk, by rw [offered_concat, if_pos rfl]; rfl⟩
    · obtain ⟨name', hk', hsome⟩ := h.only hget
      refine ⟨name', hk', ?_⟩
      rw [offered_concat]
      split
      · rfl
      · exact hsome

/-- A table that offers functions, and that is none of some tables. -/
def Offering (w : World) (A : Set Nat) (mt : Nat) (entries : List (String × Callable)) : Prop :=
  mt ∉ A ∧ ∃ t, w.table? mt = some t ∧ w.Stocks t entries

/-- What a table offers it goes on offering as long as it is left alone. -/
theorem Offering.of_prepares {A B : Set Nat} {mt : Nat} {entries : List (String × Callable)}
    (ho : w.Offering A mt entries) (h : w.Prepares (w.tablesBut B) w') (hB : B ⊆ A) :
    w'.Offering A mt entries := by
  obtain ⟨hmt, t, ht, hstocks⟩ := ho
  have hkept := h.kept (show mt ∈ w.tablesBut B from ⟨fun hm ↦ hmt (hB hm), t, ht⟩)
  exact ⟨hmt, t, hkept.trans ht, hstocks.of_kept h.text h.function⟩

/-- **A type has its metatable**, which is none of some tables. -/
def Dressed (w : World) (A : Set Nat) (types : Nat) (d : Descriptor) : Prop :=
  ∃ mt, w.binding.machine.rawGetPosition types (d.id + 1) = .table mt ∧
    w.Offering A mt (w.binding.registry.typeFunctions d.id)

theorem rawGetPosition_congr {types : Nat} (h : w'.table? types = w.table? types) (n : Int) :
    w'.binding.machine.rawGetPosition types n = w.binding.machine.rawGetPosition types n := by
  have h' : w'.binding.machine.heap.tables.get? types =
      w.binding.machine.heap.tables.get? types := h
  rw [Machine.rawGetPosition, Machine.rawGetPosition, h']

theorem Dressed.of_prepares {A B : Set Nat} {types : Nat} {d : Descriptor}
    (hd : w.Dressed A types d) (h : w.Prepares (w.tablesBut B) w') (hB : B ⊆ A)
    (hposition : w'.binding.machine.rawGetPosition types (d.id + 1) =
      w.binding.machine.rawGetPosition types (d.id + 1)) : w'.Dressed A types d := by
  obtain ⟨mt, hmt, ho⟩ := hd
  have hregistry : w'.binding.registry = w.binding.registry := by rw [h.binding]
  exact ⟨mt, hposition.trans hmt, by rw [hregistry]; exact ho.of_prepares h hB⟩

/-- The table of the globals is left alone with the others. -/
theorem Prepares.table?_globals {B : Set Nat} {t : Table} (h : w.Prepares (w.tablesBut B) w')
    (hB : w.binding.machine.globals ∉ B) (ht : w.table? w.binding.machine.globals = some t) :
    w'.table? w'.binding.machine.globals = some t := by
  rw [h.globals, h.kept ⟨hB, t, ht⟩, ht]

/-- The tables that the bridge has made for itself, and the two that come with the machine. -/
def fixtures (w : World) (t : BridgeTables) : Set Nat :=
  {id | id ∈ [t.typeMetatables, t.cache, t.pinned, t.containerMetatable, t.cursorMetatable,
    w.binding.machine.registry, w.binding.machine.globals]}

/-- **A preparation that has dressed types**: their metatables are none of the fixtures. -/
structure Dresses (w : World) (t : BridgeTables) (ds : List Descriptor) (w' : World) : Prop where
  prepares : w.Prepares ∅ w'
  types : ∃ table, w'.table? t.typeMetatables = some table
  dressed : ∀ d ∈ ds, w'.Dressed (w.fixtures t) t.typeMetatables d

/-- It goes on as long as only other fixtures are changed than the table of the metatables. -/
theorem Dresses.prepare {t : BridgeTables} {ds : List Descriptor} {w'' : World} {B : Set Nat}
    (h : w.Dresses t ds w') (h' : w'.Prepares (w'.tablesBut B) w'') (hB : B ⊆ w.fixtures t)
    (hnot : t.typeMetatables ∉ B) : w.Dresses t ds w'' where
  prepares := h.prepares.trans (h'.mono (Set.empty_subset _))
  types := by
    obtain ⟨table, ht⟩ := h.types
    exact h'.there ht
  dressed d hd := (h.dressed d hd).of_prepares h' hB
    (rawGetPosition_congr (h'.kept ⟨hnot, h.types⟩) _)

end World

namespace Exec

variable {α : Type} {P A : Set Nat} {w : World}

/-! ### Filling a table -/

/-- A function is put under its name into a table of functions. -/
theorem builds_setFunction_stocks (hw : w.Ready P) {mt : Nat} (hmt : mt ∉ P) {t : Table}
    {entries : List (String × Callable)} (ht : w.table? mt = some t) (hs : w.Stocks t entries)
    (name : String) (c : Callable) :
    Builds P (setFunction mt name c)
      (fun _ w' ↦ ∃ t', w'.table? mt = some t' ∧ w'.Stocks t' (entries ++ [(name, c)])) w := by
  refine (builds_createFunction hw c name).bind fun v w₁ h₁ hv ↦ ?_
  obtain ⟨⟨id, rfl, hid⟩, htables⟩ := hv
  refine (builds_rawSetField h₁.ready hmt name (.function id)).imp fun _ w₂ h₂ hset ↦ ?_
  obtain ⟨⟨t', k, ht', hk, hset⟩, -⟩ := hset
  obtain rfl := Option.some.inj (ht'.symm.trans ((htables mt).trans ht))
  have h := h₁.trans h₂
  exact ⟨_, hset, (hs.of_kept h.text h.function).set hk (h₂.function hid)⟩

/-- Functions are put under their names into a table of functions. -/
theorem builds_setFunctions_stocks (hw : w.Ready P) {mt : Nat} (hmt : mt ∉ P) {t : Table}
    {entries : List (String × Callable)} (ht : w.table? mt = some t) (hs : w.Stocks t entries)
    (l : List α) (name : α → String) (c : α → Callable) :
    Builds P (l.forM fun a ↦ setFunction mt (name a) (c a))
      (fun _ w' ↦ ∃ t', w'.table? mt = some t' ∧
        w'.Stocks t' (entries ++ l.map fun a ↦ (name a, c a))) w := by
  induction l generalizing w t entries with
  | nil => exact builds_pure hw ⟨t, ht, by simpa using hs⟩
  | cons a l ih =>
    refine (builds_setFunction_stocks hw hmt ht hs (name a) (c a)).bind fun _ w₁ h₁ hset ↦ ?_
    obtain ⟨t₁, ht₁, hs₁⟩ := hset
    refine (ih h₁.ready ht₁ hs₁).imp fun _ w₂ _ hset ↦ ?_
    simpa using hset

/-- A table is made and named; it offers nothing yet. -/
theorem builds_createNamed {β : Type} {P' : Set Nat} (hw : w.Ready P) (hP : P' ⊆ P) (name : String)
    {f : Nat → Exec β} {Q : β → World → Prop}
    (hf : ∀ mt w' t, w.Prepares P w' → w.table? mt = none → w'.table? mt = some t → w'.Stocks t [] →
      Builds P' (f mt) Q w') :
    Builds P' (createTable >>= fun mt ↦ setName mt name >>= fun _ ↦ f mt) Q w := by
  refine ((builds_createTable hw).mono hP).bind fun mt w₁ _ hnew ↦ ?_
  obtain ⟨h₁, hfresh, hempty, -⟩ := hnew
  have hmt : mt ∉ P := hw.not_mem hfresh
  have hname : Builds P (setName mt name)
      (fun _ w' ↦ ∃ t, w'.table? mt = some t ∧ w'.Stocks t []) w₁ := by
    refine (builds_intern h₁.ready name).bind fun v w₂ h₂ hv ↦ ?_
    obtain ⟨⟨id, rfl, -⟩, htables⟩ := hv
    refine (builds_rawSetField h₂.ready hmt "__name" (.string id)).imp fun _ w₃ _ hset ↦ ?_
    obtain ⟨⟨t, k, ht, -, hset⟩, -⟩ := hset
    obtain rfl := Option.some.inj (ht.symm.trans ((htables mt).trans hempty))
    exact ⟨_, hset, w₃.stocks_name k id⟩
  refine (hname.mono hP).bind fun _ w₂ _ hstocks ↦ ?_
  obtain ⟨h₂, t, ht, hstocks⟩ := hstocks
  exact hf mt w₂ t (h₁.trans h₂) hfresh ht hstocks

/-! ### The metatables of types -/

/-- **A type is given its metatable**, and no other type is. -/
theorem builds_createTypeMetatable_dresses {types : Nat} (hw : w.Ready P)
    (htypes : ∃ t, w.table? types = some t) (hA : ∀ id ∈ A, ∃ t, w.table? id = some t)
    (d : Descriptor) :
    Builds (w.tablesBut {types}) (createTypeMetatable types d)
      (fun _ w' ↦ w'.Dressed A types d ∧ ∀ n : Int, n ≠ d.id + 1 →
        w'.binding.machine.rawGetPosition types n = w.binding.machine.rawGetPosition types n) w := by
  obtain ⟨tt, htt⟩ := htypes
  have hready : w.Ready (w.tablesBut ∅) := hw.tablesBut ∅
  have hall : types ∈ w.tablesBut ∅ := ⟨Set.notMem_empty _, tt, htt⟩
  have hsub : w.tablesBut {types} ⊆ w.tablesBut ∅ := fun id hid ↦ ⟨Set.notMem_empty _, hid.2⟩
  refine builds_createNamed hready hsub d.name fun mt w₁ t h₁ hfresh ht hstocks ↦ ?_
  have hmt : mt ∉ w.tablesBut ∅ := hready.not_mem hfresh
  refine ((builds_setFunctions_stocks h₁.ready hmt ht hstocks _
    (fun entry : String × Builtin ↦ entry.1) fun entry ↦ .builtin entry.2).mono hsub).bind
      fun _ w₂ _ hset ↦ ?_
  obtain ⟨h₂, t₂, ht₂, hstocks₂⟩ := hset
  rw [Builds, ends_bind, ends_registry]
  refine ((builds_setFunctions_stocks h₂.ready hmt ht₂ hstocks₂ _
    (fun entry : String × Callable ↦ entry.1) fun entry ↦ entry.2).mono hsub).bind fun _ w₃ _ hset ↦ ?_
  obtain ⟨h₃, t₃, ht₃, hstocks₃⟩ := hset
  have hregistry : w₂.binding.registry = w.binding.registry := by rw [h₂.binding, h₁.binding]
  have h := (h₁.trans h₂).trans h₃
  have hnot : types ∉ w.tablesBut {types} := fun hm ↦ hm.1 rfl
  refine (builds_rawSetPosition (h.ready.mono hsub) hnot (d.id + 1) (.table mt)).imp
    fun _ w₄ h₄ hset ↦ ?_
  obtain ⟨hset, hothers⟩ := hset
  have htt₄ := hset tt ((h.kept hall).trans htt)
  have hgot : w₄.binding.machine.heap.tables.get? types = some (tt.set (.integer (d.id + 1)) (.table mt)) :=
    htt₄
  have hbefore : w.binding.machine.heap.tables.get? types = some tt := htt
  refine ⟨⟨mt, ?_, fun hm ↦ ne_of_fresh hfresh (hA mt hm) rfl, t₃, ?_, ?_⟩, fun n hn ↦ ?_⟩
  · rw [Machine.rawGetPosition, hgot]
    simp only [Table.get_set, if_true]
  · rw [hothers mt (ne_of_fresh hfresh ⟨_, htt⟩), ht₃]
  · have hentries : w₄.binding.registry.typeFunctions d.id =
        ([] ++ [("__index", Builtin.objectIndex), ("__newindex", .objectNewIndex),
          ("__gc", .finalize), ("__tostring", .describe)].map fun entry ↦
            (entry.1, Callable.builtin entry.2)) ++
          (((w₂.binding.registry.views d.id).filterMap fun v ↦
            w₂.binding.registry.get? v.1).reverse.flatMap declaredFunctions).map
              fun entry ↦ (entry.1, entry.2) := by
      rw [h₄.binding, h₃.binding, Registry.typeFunctions, Registry.lineFunctions, List.map_id']
      rfl
    rw [hentries]
    exact hstocks₃.of_kept h₄.text h₄.function
  · rw [Machine.rawGetPosition, Machine.rawGetPosition, hgot, hbefore]
    simp only [Table.get_set, Key.integer.injEq, if_neg hn]

/-- **Every type is given its metatable.** -/
theorem builds_forM_dresses {types : Nat} {ds : List Descriptor} (hw : w.Ready P)
    (htypes : ∃ t, w.table? types = some t) (hA : ∀ id ∈ A, ∃ t, w.table? id = some t)
    (hmem : types ∈ A) (hP : P ⊆ w.tablesBut {types}) (hnodup : (ds.map (·.id)).Nodup)
    {l : List Descriptor} (hdone : ∀ d ∈ l, w.Dressed A types d ∧ d.id ∉ ds.map (·.id)) :
    Builds P (ds.forM (createTypeMetatable types))
      (fun _ w' ↦ ∀ d ∈ l ++ ds, w'.Dressed A types d) w := by
  induction ds generalizing w l with
  | nil => exact builds_pure hw fun d hd ↦ (hdone d (by simpa using hd)).1
  | cons d ds ih =>
    obtain ⟨hnew, hnodup⟩ := List.nodup_cons.1 hnodup
    refine ((builds_createTypeMetatable_dresses hw htypes hA d).mono hP).bind fun _ w₁ h₁ hd ↦ ?_
    obtain ⟨hprepares, hd, hothers⟩ := hd
    have hthere : ∀ {id}, (∃ t, w.table? id = some t) → ∃ t, w₁.table? id = some t := fun ht ↦ by
      obtain ⟨t, ht⟩ := ht
      exact h₁.there ht
    refine (ih h₁.ready (hthere htypes) (fun id hid ↦ hthere (hA id hid))
      (hP.trans (h₁.tablesBut_subset _)) hnodup (l := l ++ [d]) fun d' hd' ↦ ?_).imp
        fun _ w₂ _ h₂ ↦ by simpa using h₂
    rcases List.mem_append.1 hd' with hd' | hd'
    · obtain ⟨hdressed, hnot⟩ := hdone d' hd'
      rw [List.map_cons, List.mem_cons, not_or] at hnot
      refine ⟨hdressed.of_prepares hprepares (by simpa using hmem) (hothers _ ?_), hnot.2⟩
      exact fun e ↦ hnot.1 (by omega)
    · obtain rfl := List.mem_singleton.1 hd'
      exact ⟨hd, hnew⟩

/-! ### The metatable of packed words -/

/-- **Packed words are given their metatable**, and no table but the registry of the machine changes. -/
theorem builds_createLightMetatable_serves (hw : w.Ready P)
    (hA : ∀ id ∈ A, ∃ t, w.table? id = some t) (hroot : w.binding.machine.registry ∈ A) :
    Builds (w.tablesBut {w.binding.machine.registry}) createLightMetatable
      (fun _ w' ↦ ∃ mt, w'.binding.machine.lightMetatable = some mt ∧
        w'.Offering A mt wordFunctions) w := by
  have hready : w.Ready (w.tablesBut ∅) := hw.tablesBut ∅
  have hsub : w.tablesBut {w.binding.machine.registry} ⊆ w.tablesBut ∅ :=
    fun id hid ↦ ⟨Set.notMem_empty _, hid.2⟩
  refine builds_createNamed hready hsub _ fun mt w₁ t h₁ hfresh ht hstocks ↦ ?_
  have hmt : mt ∉ w.tablesBut ∅ := hready.not_mem hfresh
  refine ((builds_setFunctions_stocks h₁.ready hmt ht hstocks _
    (fun entry : String × Builtin ↦ entry.1) fun entry ↦ .builtin entry.2).mono hsub).bind
      fun _ w₂ _ hset ↦ ?_
  obtain ⟨h₂, t₂, ht₂, hstocks₂⟩ := hset
  have h := h₁.trans h₂
  have hnot : w₂.binding.machine.registry ∉ w.tablesBut {w.binding.machine.registry} := by
    rw [h.registry]
    exact fun hm ↦ hm.1 rfl
  refine (builds_setRegistryTable (h.ready.mono hsub) hnot "bind.light_meta" mt).bind
    fun _ w₃ h₃ hset ↦ ?_
  have hnot₃ : w₃.binding.machine.registry ∉ w.tablesBut {w.binding.machine.registry} := by
    rwa [h₃.registry]
  have hne : mt ≠ w₂.binding.machine.registry := by
    rw [h.registry]
    exact ne_of_fresh hfresh (hA _ hroot)
  exact ⟨prepares_light h₃.ready hnot₃ mt, mt, rfl, fun hm ↦ ne_of_fresh hfresh (hA mt hm) rfl, t₂,
    (hset.2 mt hne).trans ht₂, hstocks₂.of_kept h₃.text h₃.function⟩

/-! ### A prepared machine -/

/-- The library is put together without touching another table than that of the globals. -/
theorem ends_createLibrary_prepares (hw : w.Ready P)
    (hempty : w.table? w.binding.machine.globals = some {}) (run : Runner) (path : String) :
    Ends (createLibrary run path)
      (fun _ w' ↦ w.Prepares (w.tablesBut {w.binding.machine.globals}) w') (fun _ _ ↦ True) w := by
  have hnot : w.binding.machine.globals ∉ w.tablesBut {w.binding.machine.globals} := fun hm ↦ hm.1 rfl
  exact Ends.imp (builds_createLibrary (hw.tablesBut _) hnot hempty run path) (fun _ _ h ↦ h.1)
    fun _ _ h ↦ h

section Dressing

variable {t : BridgeTables} {ds : List Descriptor} (hout : w.Outfitted t)
  (hroot : ∃ table, w.table? w.binding.machine.registry = some table)
  (hglobals : w.table? w.binding.machine.globals = some {})
include hout hroot hglobals

/-- Every fixture is there once the tables of the bridge are made. -/
theorem exists_of_fixture {w' : World} (h : w.Prepares ∅ w') (id : Nat) (hid : id ∈ w.fixtures t) :
    ∃ table, w'.table? id = some table := by
  obtain ⟨table, ht⟩ : ∃ table, w.table? id = some table := by
    simp only [World.fixtures, Set.mem_ofPred_eq, List.mem_cons, List.not_mem_nil, or_false] at hid
    rcases hid with rfl | rfl | rfl | rfl | rfl | rfl | rfl
    · exact hout.there _ (by simp)
    · exact hout.there _ (by simp)
    · exact hout.there _ (by simp)
    · exact hout.there _ (by simp)
    · exact hout.there _ (by simp)
    · exact hroot
    · exact ⟨_, hglobals⟩
  exact h.there ht

/-- **The types are dressed**, and then the metatables of containers and cursors are filled. -/
theorem ends_fillMetatables_dresses (hw : w.Ready P) (hnodup : (ds.map (·.id)).Nodup) :
    Ends (ds.forM (createTypeMetatable t.typeMetatables) >>= fun _ ↦ fillContainerMetatables t)
      (fun _ w' ↦ w.Dresses t ds w' ∧ w'.table? w'.binding.machine.globals = some {})
      (fun _ _ ↦ True) w := by
  have hthere {w' : World} (h : w.Prepares ∅ w') := exists_of_fixture hout hroot hglobals h
  have hbegin : w.Prepares ∅ w := .refl (hw.mono (Set.empty_subset _))
  have hmem : t.typeMetatables ∈ w.fixtures t := by simp [World.fixtures]
  have htypes := hout.apart t.typeMetatables (by simp)
  have hcontainer := hout.apart t.containerMetatable (by simp)
  have hcursor := hout.apart t.cursorMetatable (by simp)
  rw [ends_bind]
  refine Ends.imp (builds_forM_dresses (l := []) (hw.tablesBut {t.typeMetatables})
    (hthere hbegin _ hmem) (hthere hbegin) hmem subset_rfl hnodup fun _ h ↦ absurd h List.not_mem_nil)
      (fun _ w₁ h ↦ ?_) fun _ _ h ↦ h
  obtain ⟨h₁, hdressed⟩ := h
  have hprepares := h₁.mono (Set.empty_subset _)
  have hdresses₁ : w.Dresses t ds w₁ := ⟨hprepares, hthere hprepares _ hmem, by simpa using hdressed⟩
  have hglobals₁ := h₁.table?_globals (by simpa using htypes.2.2.symm) hglobals
  refine Ends.imp (builds_fillContainerMetatables (h₁.ready.tablesBut
    {t.containerMetatable, t.cursorMetatable}) t (fun hm ↦ hm.1 (by simp))
      fun hm ↦ hm.1 (by simp)) (fun _ w₂ h ↦ ?_) fun _ _ h ↦ h
  obtain ⟨h₂, -⟩ := h
  refine ⟨hdresses₁.prepare h₂ (by simp [World.fixtures, Set.insert_subset_iff]) fun hm ↦
    hout.types (by rcases hm with h | h <;> rw [h] <;> simp), h₂.table?_globals ?_ hglobals₁⟩
  rw [h₁.globals]
  simpa using ⟨hcontainer.2.2.symm, hcursor.2.2.symm⟩

variable (hne : w.binding.machine.registry ≠ w.binding.machine.globals)
include hne

/-- **The metatable of packed words is made** beside them. -/
theorem ends_createLightMetatable_dresses {w₁ : World} (h : w.Dresses t ds w₁)
    (hglobals₁ : w₁.table? w₁.binding.machine.globals = some {}) :
    Ends createLightMetatable (fun _ w' ↦ w.Dresses t ds w' ∧
        w'.table? w'.binding.machine.globals = some {} ∧
        ∃ mt, w'.binding.machine.lightMetatable = some mt ∧
          w'.Offering (w.fixtures t) mt wordFunctions) (fun _ _ ↦ True) w₁ := by
  have hsame := h.prepares
  refine Ends.imp (builds_createLightMetatable_serves (A := w.fixtures t) hsame.ready
    (exists_of_fixture hout hroot hglobals hsame) (by rw [hsame.registry]; simp [World.fixtures]))
      (fun _ w₂ h₂ ↦ ?_) fun _ _ h ↦ h
  obtain ⟨h₂, hserves⟩ := h₂
  have hglobals₂ := h₂.table?_globals (by
    rw [hsame.globals, hsame.registry]
    simpa using hne.symm) hglobals₁
  rw [hsame.registry] at h₂
  exact ⟨h.prepare h₂ (by simp [World.fixtures])
    (by simpa using (hout.apart t.typeMetatables (by simp)).2.1), hglobals₂, hserves⟩

/-- **The library leaves them all alone.** -/
theorem ends_createLibrary_dresses {w₁ : World} (h : w.Dresses t ds w₁)
    (hglobals₁ : w₁.table? w₁.binding.machine.globals = some {}) (run : Runner) (path : String) :
    Ends (createLibrary run path) (fun _ w' ↦ w.Dresses t ds w' ∧
        w'.binding.machine.lightMetatable = w₁.binding.machine.lightMetatable ∧
        ∀ {mt}, w₁.Offering (w.fixtures t) mt wordFunctions →
          w'.Offering (w.fixtures t) mt wordFunctions) (fun _ _ ↦ True) w₁ := by
  have hsame := h.prepares
  have hsub : {w.binding.machine.globals} ⊆ w.fixtures t := by simp [World.fixtures]
  refine Ends.imp (ends_createLibrary_prepares hsame.ready hglobals₁ run path) (fun _ w' h' ↦ ?_)
    fun _ _ h ↦ h
  rw [hsame.globals] at h'
  refine ⟨h.prepare h' hsub (by simpa using (hout.apart t.typeMetatables (by simp)).2.2),
    h'.light ?_, fun ho ↦ ho.of_prepares h' hsub⟩
  rw [hsame.registry]
  exact ⟨by simpa using hne, exists_of_fixture hout hroot hglobals hsame _ (by simp [World.fixtures])⟩

/-- Once the tables of the bridge are made, all metatables are made and left alone. -/
theorem ends_setupTables_equips (hw : w.Ready P) (hnodup : (ds.map (·.id)).Nodup) (run : Runner)
    (light : Bool) (path : String) :
    Ends (do
        ds.forM (createTypeMetatable t.typeMetatables)
        fillContainerMetatables t
        if light then createLightMetatable
        createLibrary run path)
      (fun _ w' ↦ w.Dresses t ds w' ∧
        (light = true → ∃ mt, w'.binding.machine.lightMetatable = some mt ∧
          w'.Offering (w.fixtures t) mt wordFunctions))
      (fun _ _ ↦ True) w := by
  rw [← bind_assoc, ends_bind]
  refine (ends_fillMetatables_dresses hout hroot hglobals hw hnodup).imp (fun _ w₁ h ↦ ?_)
    fun _ _ h ↦ h
  obtain ⟨h₁, hglobals₁⟩ := h
  cases light with
  | false =>
    refine (ends_createLibrary_dresses hout hroot hglobals hne h₁ hglobals₁ run path).imp
      (fun _ w' h ↦ ?_) fun _ _ h ↦ h
    exact ⟨h.1, fun h ↦ absurd h (by simp)⟩
  | true =>
    show Ends (createLightMetatable >>= fun _ ↦ createLibrary run path) _ _ w₁
    rw [ends_bind]
    refine (ends_createLightMetatable_dresses hout hroot hglobals hne h₁ hglobals₁).imp
      (fun _ w₂ h ↦ ?_) fun _ _ h ↦ h
    obtain ⟨h₂, hglobals₂, mt, hmt, hserves⟩ := h
    refine (ends_createLibrary_dresses hout hroot hglobals hne h₂ hglobals₂ run path).imp
      (fun _ w' h ↦ ?_) fun _ _ h ↦ h
    obtain ⟨h', hlight, hoffering⟩ := h
    exact ⟨h', fun _ ↦ ⟨mt, hlight.trans hmt, hoffering hserves⟩⟩

end Dressing

/-- **A machine that has been prepared is equipped.** -/
theorem ends_setup_equips (hmachine : w.binding.machine = .initial)
    (hregistry : w.binding.registry.Sound) (run : Runner) :
    Ends (setup run) (fun _ w' ↦ w'.Equipped) (fun _ _ ↦ True) w := by
  obtain ⟨hready, hstrong, hglobals, hne⟩ := ready_initial hmachine
  rw [setup, ends_bind]
  refine Ends.imp (builds_createBridgeTables hready hstrong hne) (fun t w₁ h ↦ ?_) fun _ _ h ↦ h
  obtain ⟨h₁, hout, hstrong₁⟩ := h
  rw [ends_bind, ends_modify, ends_bind, ends_binding]
  have hready₁ : World.Ready ∅ { w₁ with binding.tables := t } :=
    ⟨h₁.ready.tables, h₁.ready.functions, h₁.ready.strings, fun _ h ↦ absurd h (Set.notMem_empty _)⟩
  have hroot : ∃ table, w₁.table? w₁.binding.machine.registry = some table := by
    obtain ⟨table, ht, -⟩ := hstrong₁
    exact ⟨table, ht⟩
  have hglobals₁ : w₁.table? w₁.binding.machine.globals = some {} := by
    rw [h₁.globals, h₁.kept rfl, hglobals]
  have hsame : w₁.binding.registry = w.binding.registry := by rw [h₁.binding]
  have hids : (w₁.binding.registry.types.toList.map (·.id)).Nodup := by
    rw [hsame, hregistry.map_id_types]
    exact List.nodup_range
  refine Ends.imp (ends_setupTables_equips (w := { w₁ with binding.tables := t }) hout.tables hroot
    hglobals₁ (by rwa [h₁.registry, h₁.globals]) hready₁ hids run _ _) (fun _ w' h ↦ ?_) fun _ _ h ↦ h
  obtain ⟨⟨h', -, hdressed⟩, hlight⟩ := h
  have hbinding : w'.binding.tables = t ∧ w'.binding.registry = w.binding.registry ∧
      w'.binding.settings = w₁.binding.settings := by
    rw [h'.binding]
    exact ⟨rfl, hsame, rfl⟩
  obtain ⟨htables, hsame', hsettings⟩ := hbinding
  have hserves : ∀ {mt entries}, w'.Offering (w₁.fixtures t) mt entries →
      w'.Serves mt entries := fun h ↦ by
    obtain ⟨hnot, hoffers⟩ := h
    simp only [World.fixtures, Set.mem_ofPred_eq, List.mem_cons, not_or] at hnot
    exact ⟨by rw [htables]; exact ⟨hnot.2.1, hnot.2.2.1⟩, hoffers⟩
  refine ⟨h'.ready.strings, ?_, fun {type d} hd ↦ ?_, fun h ↦ ?_⟩
  · rw [htables]
    exact ⟨(hout.apart _ (by simp)).1, fun e ↦ hout.types (by simp [e])⟩
  · rw [hsame'] at hd
    obtain ⟨mt, hmt, hoffers⟩ := hdressed d (by
      show d ∈ w₁.binding.registry.types.toList
      rw [hsame]
      exact Array.mem_toList_iff.2 (Array.mem_of_getElem? hd))
    rw [hregistry.id_eq hd] at hmt hoffers
    refine ⟨mt, ?_, hserves hoffers⟩
    rw [World.typeMetatable?, htables, hmt]
    rfl
  · obtain ⟨mt, hmt, hoffers⟩ := hlight (hsettings ▸ h)
    exact ⟨mt, hmt, hserves hoffers⟩

theorem equipped_of_setup {R : Realm} (hw : w.Fresh R) {run : Runner} {w' : World}
    (h : (setup run).outcome w = (.ok (), w')) : w'.Equipped :=
  (ends_setup_equips hw.machine (hw.registry ▸ R.sound w.binding.domain) run).ok h

end Exec

end ObjectBridge
