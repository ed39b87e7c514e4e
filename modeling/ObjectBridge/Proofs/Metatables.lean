import ObjectBridge.Proofs.Preparing

/-!
# What metatables offer

The metatable of a type has the functions of the bridge for objects and then the functions that the
type and its bases declare, those of the type itself last (`Registry.typeFunctions`); the metatable of
packed words has functions of the bridge only. `World.Equipped` says that the metatables of a binding
are so, and that no table that the bridge keeps its references in is one of them. It stays so as long
as these tables and the functions in them are left alone (`World.KeepsTables`).

Where no member has the name of a metamethod, the functions of the bridge that a metatable offers under
such names are there whatever else it offers (`Registry.Unadorned.offered`). So a packed word and a
userdata have their members read and written by the same functions.
-/

namespace ObjectBridge

/-! ### Functions by name -/

/-- The function that is put last under a name. -/
def offered (entries : List (String × Callable)) (name : String) : Option Callable :=
  entries.reverse.lookup name

theorem offered_append (front back : List (String × Callable)) (name : String) :
    offered (front ++ back) name = (offered back name).or (offered front name) := by
  rw [offered, List.reverse_append, List.lookup_append]
  rfl

theorem offered_concat (entries : List (String × Callable)) (name : String) (c : Callable)
    (name' : String) : offered (entries ++ [(name, c)]) name' =
      if name' = name then some c else offered entries name' := by
  rw [offered_append]
  by_cases h : name' = name
  · simp [offered, h]
  · have hne : (name' == name) = false := beq_false_of_ne h
    simp [offered, List.lookup_cons, h, hne]

/-- A name that no entry has is offered nothing. -/
theorem offered_eq_none {entries : List (String × Callable)} {name : String}
    (h : ∀ entry ∈ entries, entry.1 ≠ name) : offered entries name = none := by
  rw [offered, List.lookup_eq_none_iff]
  intro entry hentry
  exact bne_iff_ne.2 fun heq ↦ h entry (List.mem_reverse.1 hentry) heq.symm

/-- The functions of the bridge for objects in userdata. -/
def objectFunctions : List (String × Callable) :=
  [("__index", .builtin .objectIndex), ("__newindex", .builtin .objectNewIndex),
    ("__gc", .builtin .finalize), ("__tostring", .builtin .describe)]

/-- The functions of the bridge for objects in words. -/
def wordFunctions : List (String × Callable) :=
  [("__index", .builtin .objectIndex), ("__newindex", .builtin .objectNewIndex),
    ("__tostring", .builtin .describe)]

namespace Registry

variable {r : Registry}

/-- The functions that a type and its bases declare, those of the topmost base first. -/
def lineFunctions (r : Registry) (id : Nat) : List (String × Callable) :=
  ((r.views id).filterMap fun v ↦ r.get? v.1).reverse.flatMap Exec.declaredFunctions

/-- The functions in the metatable of a type, in the order in which they are put there. -/
def typeFunctions (r : Registry) (id : Nat) : List (String × Callable) :=
  objectFunctions ++ r.lineFunctions id

/-- No exported member has a name that begins like the name of a metamethod. -/
def Unadorned (r : Registry) : Prop :=
  ∀ {id d name m}, r.get? id = some d → d.members.find? name = some m → ¬ ['_', '_'] <+: name.toList

instance (r : Registry) : Decidable r.Unadorned :=
  decidable_of_iff (r.types.all (fun d ↦ d.members.toList.all fun e ↦
      !(['_', '_'].isPrefixOf e.1.toList)) = true) <| by
    simp only [Unadorned, Array.all_eq_true, List.all_eq_true, Bool.not_eq_true',
      ← Bool.not_eq_true, List.isPrefixOf_iff_prefix]
    constructor
    · intro h id d name m hd hm
      obtain ⟨hlt, rfl⟩ := Array.getElem?_eq_some_iff.1 hd
      exact h id hlt (name, m) ((Dict.mem_toList_iff _ _ _).2 hm)
    · rintro h id hlt ⟨name, m⟩ hm
      exact h (Array.getElem?_eq_getElem hlt) ((Dict.mem_toList_iff _ _ _).1 hm)

/-- Where no member has the name of a metamethod, metatables have their metamethods from the bridge. -/
theorem Unadorned.offered (h : r.Unadorned) {name : String} (hname : ['_', '_'] <+: name.toList)
    (id : Nat) : offered (r.typeFunctions id) name = offered objectFunctions name := by
  have hline : ObjectBridge.offered (r.lineFunctions id) name = none := by
    refine offered_eq_none ?_
    rintro ⟨name', c⟩ hentry rfl
    obtain ⟨d, hd, hc⟩ := List.mem_flatMap.1 hentry
    obtain ⟨v, -, hv⟩ := List.mem_filterMap.1 (List.mem_reverse.1 hd)
    obtain ⟨⟨name', m⟩, hm, hfun⟩ := List.mem_filterMap.1 hc
    cases m with
    | «variable» t get set? => exact absurd hfun (by simp)
    | function c' =>
      obtain ⟨rfl, -⟩ := Prod.mk.inj (Option.some.inj hfun)
      exact h hv ((d.members.mem_toList_iff _ _).1 hm) hname
  rw [typeFunctions, offered_append, hline, Option.none_or]

end Registry

namespace World

variable {w w' w'' : World}

/-! ### Metatables -/

/-- A table has functions under names, and under no other names. -/
structure Stocks (w : World) (t : Table) (entries : List (String × Callable)) : Prop where
  there : ∀ {name c}, offered entries name = some c → ∃ k id f, w.text? k = some name ∧
    t.get (.string k) = .function id ∧ w.function? id = some f ∧ f.callable = c
  only : ∀ {k id}, t.get (.string k) = .function id →
    ∃ name, w.text? k = some name ∧ (offered entries name).isSome = true

/-- A table has functions under names, and is not one in which the bridge keeps references. -/
def Serves (w : World) (mt : Nat) (entries : List (String × Callable)) : Prop :=
  (mt ≠ w.binding.tables.cache ∧ mt ≠ w.binding.tables.pinned) ∧
    ∃ t, w.table? mt = some t ∧ w.Stocks t entries

/-- The metatable of a type. -/
def typeMetatable? (w : World) (type : Nat) : Option Nat :=
  (w.binding.machine.rawGetPosition w.binding.tables.typeMetatables (type + 1)).table?

/-- **The metatables of a binding offer what they offered when its machine was prepared.** -/
structure Equipped (w : World) : Prop where
  strings : w.binding.machine.heap.strings.Consistent
  apart : w.binding.tables.typeMetatables ≠ w.binding.tables.cache ∧
    w.binding.tables.typeMetatables ≠ w.binding.tables.pinned
  types : ∀ {type d}, w.binding.registry.get? type = some d →
    ∃ mt, w.typeMetatable? type = some mt ∧ w.Serves mt (w.binding.registry.typeFunctions type)
  words : w.binding.settings.lightUserdata = true →
    ∃ mt, w.binding.machine.lightMetatable = some mt ∧ w.Serves mt wordFunctions

/-- The tables of a machine are left alone, but for those in which the bridge keeps references, and so
are functions and texts. -/
structure KeepsTables (w w' : World) : Prop where
  registry : w'.binding.registry = w.binding.registry
  settings : w'.binding.settings = w.binding.settings
  tables : w'.binding.tables = w.binding.tables
  light : w'.binding.machine.lightMetatable = w.binding.machine.lightMetatable
  strings : w'.binding.machine.heap.strings.Consistent
  text : ∀ {id s}, w.text? id = some s → w'.text? id = some s
  function : ∀ {id f}, w.function? id = some f → w'.function? id = some f
  kept : ∀ {id}, id ≠ w.binding.tables.cache → id ≠ w.binding.tables.pinned →
    w'.table? id = w.table? id

theorem KeepsTables.refl (h : w.binding.machine.heap.strings.Consistent) : w.KeepsTables w :=
  ⟨rfl, rfl, rfl, rfl, h, fun h ↦ h, fun h ↦ h, fun _ _ ↦ rfl⟩

/-- What is changed outside the binding does not matter. -/
theorem KeepsTables.of_binding (hw : w.binding.machine.heap.strings.Consistent)
    (h : w'.binding = w.binding) : w.KeepsTables w' := by
  obtain ⟨host, pins, binding, desk⟩ := w'
  obtain rfl : binding = w.binding := h
  exact ⟨rfl, rfl, rfl, rfl, hw, fun h ↦ h, fun h ↦ h, fun _ _ ↦ rfl⟩

theorem KeepsTables.trans (h : w.KeepsTables w') (h' : w'.KeepsTables w'') : w.KeepsTables w'' where
  registry := h'.registry.trans h.registry
  settings := h'.settings.trans h.settings
  tables := h'.tables.trans h.tables
  light := h'.light.trans h.light
  strings := h'.strings
  text ht := h'.text (h.text ht)
  function hf := h'.function (h.function hf)
  kept hcache hpinned :=
    (h'.kept (h.tables ▸ hcache) (h.tables ▸ hpinned)).trans (h.kept hcache hpinned)

/-- Functions and texts stay, and so does what a table that stays has of them. -/
theorem Stocks.of_kept {t : Table} {entries : List (String × Callable)} (h : w.Stocks t entries)
    (htext : ∀ {id s}, w.text? id = some s → w'.text? id = some s)
    (hfunction : ∀ {id f}, w.function? id = some f → w'.function? id = some f) :
    w'.Stocks t entries where
  there hc := by
    obtain ⟨k, id, f, hk, hid, hf, hcallable⟩ := h.there hc
    exact ⟨k, id, f, htext hk, hid, hfunction hf, hcallable⟩
  only hid := by
    obtain ⟨name, hk, hname⟩ := h.only hid
    exact ⟨name, htext hk, hname⟩

theorem KeepsTables.serves (h : w.KeepsTables w') {mt : Nat} {entries : List (String × Callable)}
    (hmt : w.Serves mt entries) : w'.Serves mt entries := by
  obtain ⟨⟨hcache, hpinned⟩, t, ht, hstocks⟩ := hmt
  refine ⟨?_, t, (h.kept hcache hpinned).trans ht, hstocks.of_kept h.text h.function⟩
  rw [h.tables]
  exact ⟨hcache, hpinned⟩

theorem KeepsTables.typeMetatable? (h : w.KeepsTables w') (hw : w.Equipped) (type : Nat) :
    w'.typeMetatable? type = w.typeMetatable? type := by
  have hkept : w'.binding.machine.heap.tables.get? w.binding.tables.typeMetatables =
      w.binding.machine.heap.tables.get? w.binding.tables.typeMetatables :=
    h.kept hw.apart.1 hw.apart.2
  simp only [World.typeMetatable?, Machine.rawGetPosition, h.tables, hkept]

/-- **A binding stays equipped** while its metatables are left alone. -/
theorem Equipped.of_keepsTables (hw : w.Equipped) (h : w.KeepsTables w') : w'.Equipped where
  strings := h.strings
  apart := by
    rw [h.tables]
    exact hw.apart
  types {type d} hd := by
    rw [h.registry] at hd ⊢
    obtain ⟨mt, hmt, hserves⟩ := hw.types hd
    exact ⟨mt, (h.typeMetatable? hw type).trans hmt, h.serves hserves⟩
  words hlight := by
    rw [h.settings] at hlight
    obtain ⟨mt, hmt, hserves⟩ := hw.words hlight
    exact ⟨mt, h.light.trans hmt, h.serves hserves⟩

/-- Whether a binding is equipped is told by the binding alone. -/
theorem Equipped.congr (hw : w.Equipped) (h : w'.binding = w.binding) : w'.Equipped :=
  hw.of_keepsTables (.of_binding hw.strings h)

/-! ### Looking functions up -/

section Lookup

variable {mt k : Nat} {name : String} {c : Callable} {entries : List (String × Callable)}

/-- A function that is offered under a name is found by the string of the name. -/
theorem Serves.rawGet (h : w.Serves mt entries) (hw : w.binding.machine.heap.strings.Consistent)
    (hk : w.text? k = some name) (hc : offered entries name = some c) :
    ∃ id, w.binding.machine.heap.rawGet mt (.string k) = .function id ∧
      w.binding.machine.callable? (.function id) = some c := by
  obtain ⟨-, t, ht, hstocks⟩ := h
  obtain ⟨k', id, f, hk', hget, hf, hcallable⟩ := hstocks.there hc
  obtain rfl : k = k' :=
    Option.some.inj (((hw.lookup_iff _ _).2 hk).symm.trans ((hw.lookup_iff _ _).2 hk'))
  have htable : w.binding.machine.heap.tables.get? mt = some t := ht
  have hfunction : w.binding.machine.heap.functions.get? id = some f := hf
  refine ⟨id, ?_, ?_⟩
  · simp only [Heap.rawGet, htable]
    exact hget
  · simp only [Machine.callable?, hfunction, Option.map_some, hcallable]

/-- No function is found by the string of a name under which none is offered. -/
theorem Serves.rawGet_ne (h : w.Serves mt entries) (hk : w.text? k = some name)
    (hnone : offered entries name = none) (id : Nat) :
    w.binding.machine.heap.rawGet mt (.string k) ≠ .function id := by
  obtain ⟨-, t, ht, hstocks⟩ := h
  have htable : w.binding.machine.heap.tables.get? mt = some t := ht
  intro hget
  simp only [Heap.rawGet, htable] at hget
  obtain ⟨name', hk', hsome⟩ := hstocks.only (show t.get (.string k) = .function id from hget)
  obtain rfl := Option.some.inj (hk.symm.trans hk')
  rw [hnone] at hsome
  exact absurd hsome (by simp)

theorem Serves.rawGetField (h : w.Serves mt entries)
    (hw : w.binding.machine.heap.strings.Consistent) (hc : offered entries name = some c) :
    ∃ id, w.binding.machine.heap.rawGetField mt name = .function id ∧
      w.binding.machine.callable? (.function id) = some c := by
  obtain ⟨k, hk⟩ : ∃ k, w.text? k = some name := by
    obtain ⟨-, t, -, hstocks⟩ := h
    obtain ⟨k, -, -, hk, -⟩ := hstocks.there hc
    exact ⟨k, hk⟩
  obtain ⟨id, hget, hcallable⟩ := h.rawGet hw hk hc
  refine ⟨id, ?_, hcallable⟩
  rw [Heap.rawGetField, (hw.lookup_iff _ _).2 hk]
  exact hget

end Lookup

end World

end ObjectBridge
