import ObjectBridge.Program.Collect
import ObjectBridge.Proofs.PinTables
import ObjectBridge.Proofs.Starting
import ObjectBridge.Proofs.Sweeping
import ObjectBridge.Proofs.Turns
import ObjectBridge.Proofs.Working

/-!
# Pins of a binding

A binding has its pins among those of all bindings, and the values that they pin in a table of its machine
(`World.HasPins`). What else happens leaves both alone (`World.SparesPins`), and so does what the bridge
does; pinning, and working off the queue of released references, change both and nothing else
(`World.ChangesPins`). The registry of the machine names the table of pinned objects, so that a cycle of the
collector keeps the table and what it holds (`World.HasPins.thin`).

In a session that has been started nothing is pinned as yet (`Session.hasPins_start`).
-/

namespace ObjectBridge

namespace World

variable {w w' w'' : World} {t : PinTable} {T : Table} {v : Value}

/-- The object of a value is there, if it has one. -/
def there (w : World) (v : Value) : Bool :=
  v.ref?.all w.binding.machine.heap.live

/-- The pins of the binding. -/
def pinTable (w : World) : PinTable :=
  w.pins[w.binding.number]?.getD {}

/-- The registry of the machine names the table of pinned objects, and keeps it. -/
def LinksPinned (w : World) : Prop :=
  ∃ root k, w.table? w.binding.machine.registry = some root ∧ root.weakValues = false ∧
    root.entries.find? k = some (.table w.binding.tables.pinned)

/-- What the pins of the binding are, and the table of pinned objects. -/
structure HasPins (w : World) (t : PinTable) (T : Table) : Prop where
  pins : w.pins[w.binding.number]? = some t
  table : w.table? w.binding.tables.pinned = some T
  ne_registry : w.binding.tables.pinned ≠ w.binding.machine.registry
  ne_cache : w.binding.tables.pinned ≠ w.binding.tables.cache
  cache_ne_registry : w.binding.tables.cache ≠ w.binding.machine.registry
  links : w.LinksPinned

theorem HasPins.pinTable_eq (h : w.HasPins t T) : w.pinTable = t := by
  rw [pinTable, h.pins, Option.getD_some]

theorem HasPins.rawGetPosition_eq (hp : w.HasPins t T) (r : Int) :
    w.binding.machine.rawGetPosition w.binding.tables.pinned r =
      (T.entries.find? (.integer r)).getD .nil := by
  have htable : w.binding.machine.heap.tables.get? w.binding.tables.pinned = some T := hp.table
  simp only [Machine.rawGetPosition, htable, Table.get]

/-- **Something leaves pins alone**, the table of pinned objects, and the objects that are there. -/
structure SparesPins (w w' : World) : Prop where
  number : w'.binding.number = w.binding.number
  tables : w'.binding.tables = w.binding.tables
  pins : w'.pins[w.binding.number]? = w.pins[w.binding.number]?
  registry : w'.binding.machine.registry = w.binding.machine.registry
  pinned : w'.table? w.binding.tables.pinned = w.table? w.binding.tables.pinned
  links : w.LinksPinned → w'.LinksPinned
  live : ∀ {r}, w.binding.machine.heap.live r = true → w'.binding.machine.heap.live r = true

theorem SparesPins.hasPins (h : w.SparesPins w') (hp : w.HasPins t T) : w'.HasPins t T where
  pins := by rw [h.number, h.pins, hp.pins]
  table := by rw [h.tables, h.pinned, hp.table]
  ne_registry := by
    rw [h.tables, h.registry]
    exact hp.ne_registry
  ne_cache := by
    rw [h.tables]
    exact hp.ne_cache
  cache_ne_registry := by
    rw [h.tables, h.registry]
    exact hp.cache_ne_registry
  links := h.links hp.links

theorem there_of_live (hlive : ∀ {r}, w.binding.machine.heap.live r = true →
    w'.binding.machine.heap.live r = true) (hv : w.there v = true) : w'.there v = true := by
  rw [there, Option.all_eq_true] at hv ⊢
  exact fun r hr ↦ hlive (hv r hr)

/-- What happens to stack and frames leaves pins alone. -/
theorem Restacked.sparesPins (h : w.Restacked w') : w.SparesPins w' := by
  obtain ⟨stack, frames, rfl⟩ := h
  exact ⟨rfl, rfl, rfl, rfl, rfl, id, id⟩

theorem Works.live (h : w.Works w') {r : Ref} (hr : w.binding.machine.heap.live r = true) :
    w'.binding.machine.heap.live r = true := by
  cases r with
  | string id => rwa [Heap.live, h.machine.strings]
  | table id =>
    by_cases hid : id = w.binding.tables.cache
    · subst hid
      exact h.machine.there hr
    · rw [Heap.live, SlotStore.live, h.machine.tables hid]
      exact hr
  | function id => rwa [Heap.live, h.machine.functions]
  | userdata id => exact h.machine.userdata hr

/-- **What the bridge does leaves pins alone.** -/
theorem Works.sparesPins (h : w.Works w') (hp : w.HasPins t T) : w.SparesPins w' where
  number := h.number
  tables := h.tables
  pins := by rw [h.pins]
  registry := h.machine.registry
  pinned := h.machine.tables hp.ne_cache
  links := by
    rintro ⟨root, k, hroot, hstrong, hk⟩
    refine ⟨root, k, ?_, hstrong, h.tables ▸ hk⟩
    rw [h.machine.registry]
    exact (h.machine.tables hp.cache_ne_registry.symm).trans hroot
  live hr := h.live hr

/-! ### Changes of pins -/

/-- Pins and the table of pinned objects are changed, and nothing else is. -/
structure ChangesPins (w : World) (f : PinTable → PinTable) (g : Table → Table) (w' : World) : Prop where
  number : w'.binding.number = w.binding.number
  tables : w'.binding.tables = w.binding.tables
  pins : w'.pins[w.binding.number]? = (w.pins[w.binding.number]?).map f
  registry : w'.binding.machine.registry = w.binding.machine.registry
  pinned : w'.table? w.binding.tables.pinned = (w.table? w.binding.tables.pinned).map g
  others : ∀ {id}, id ≠ w.binding.tables.pinned → w'.table? id = w.table? id
  strings : w'.binding.machine.heap.strings = w.binding.machine.heap.strings
  functions : w'.binding.machine.heap.functions = w.binding.machine.heap.functions
  userdata : w'.binding.machine.heap.userdata = w.binding.machine.heap.userdata

variable {f : PinTable → PinTable} {g : Table → Table}

theorem ChangesPins.hasPins (h : w.ChangesPins f g w') (hp : w.HasPins t T) :
    w'.HasPins (f t) (g T) where
  pins := by rw [h.number, h.pins, hp.pins, Option.map_some]
  table := by rw [h.tables, h.pinned, hp.table, Option.map_some]
  ne_registry := by
    rw [h.tables, h.registry]
    exact hp.ne_registry
  ne_cache := by
    rw [h.tables]
    exact hp.ne_cache
  cache_ne_registry := by
    rw [h.tables, h.registry]
    exact hp.cache_ne_registry
  links := by
    obtain ⟨root, k, hroot, hstrong, hk⟩ := hp.links
    refine ⟨root, k, ?_, hstrong, h.tables ▸ hk⟩
    rw [h.registry, h.others hp.ne_registry.symm, hroot]

theorem ChangesPins.live (h : w.ChangesPins f g w') {r : Ref}
    (hr : w.binding.machine.heap.live r = true) : w'.binding.machine.heap.live r = true := by
  cases r with
  | string id => rwa [Heap.live, h.strings]
  | table id =>
    by_cases hid : id = w.binding.tables.pinned
    · subst hid
      show (w'.table? w.binding.tables.pinned).isSome = true
      rw [h.pinned, Option.isSome_map]
      exact hr
    · show (w'.table? id).isSome = true
      rw [h.others hid]
      exact hr
  | function id => rwa [Heap.live, h.functions]
  | userdata id => rwa [Heap.live, h.userdata]

/-- Pins are changed. -/
theorem changesPins_modify (w : World) (f : PinTable → PinTable) :
    w.ChangesPins f id { w with pins := w.pins.modify w.binding.number f } where
  number := rfl
  tables := rfl
  pins := by
    show (w.pins.modify w.binding.number f)[w.binding.number]? = _
    rw [Array.getElem?_modify, if_pos rfl]
  registry := rfl
  pinned := Option.map_id_apply.symm
  others _ := rfl
  strings := rfl
  functions := rfl
  userdata := rfl

/-! ### Cycles of the collector -/

/-- The table of pinned objects can be reached from the roots, and so can what it holds. -/
theorem HasPins.rooted (hp : w.HasPins t T) (hstrong : T.weakValues = false) :
    w.binding.machine.heap.Rooted w.binding.machine.roots (.table w.binding.tables.pinned) ∧
      ∀ {k v r}, T.entries.find? k = some v → v.ref? = some r →
        w.binding.machine.heap.Rooted w.binding.machine.roots r := by
  obtain ⟨root, k, hroot, hrootStrong, hk⟩ := hp.links
  have hrooted := w.binding.machine.rooted_registry.entry hroot hrootStrong hk rfl
  exact ⟨hrooted, fun hk hv ↦ hrooted.entry hp.table hstrong hk hv⟩

/-- **A cycle, complete or not, leaves pins alone.** -/
theorem HasPins.thin (hp : w.HasPins t T) (hstrong : T.weakValues = false) {m : Machine}
    (h : w.Thinned m) : (w.withBinding m w.binding.cache).HasPins t T where
  pins := hp.pins
  table := h.heap.strong hp.table hstrong (hp.rooted hstrong).1
  ne_registry := by
    show w.binding.tables.pinned ≠ m.registry
    rw [h.registry]
    exact hp.ne_registry
  ne_cache := hp.ne_cache
  cache_ne_registry := by
    show w.binding.tables.cache ≠ m.registry
    rw [h.registry]
    exact hp.cache_ne_registry
  links := by
    obtain ⟨root, k, hroot, hrootStrong, hk⟩ := hp.links
    refine ⟨root, k, ?_, hrootStrong, hk⟩
    show m.heap.tables.get? m.registry = some root
    rw [h.registry]
    exact h.heap.strong hroot hrootStrong w.binding.machine.rooted_registry

/-- **What is pinned is there after a cycle** if it was there before. -/
theorem HasPins.there_thin (hp : w.HasPins t T) (hstrong : T.weakValues = false) {m : Machine}
    (h : w.Thinned m) {k : Key} (hk : T.entries.find? k = some v) (hv : w.there v = true) :
    (w.withBinding m w.binding.cache).there v = true := by
  rw [there, Option.all_eq_true] at hv ⊢
  exact fun r hr ↦ h.heap.rooted (hv r hr) ((hp.rooted hstrong).2 hk hr)

end World

/-- Releasing references of a table one by one. -/
theorem Machine.get?_foldl_unreference (m : Machine) (table : Nat) (refs : List Int) :
    (refs.foldl (fun m r ↦ m.unreference table r) m).heap.tables.get? table =
      (m.heap.tables.get? table).map (refs.foldl Table.unreference ·) := by
  induction refs generalizing m with
  | nil => exact Option.map_id_apply.symm
  | cons r refs ih =>
    rw [List.foldl_cons, ih, Machine.unreference, Heap.modifyTable, SlotStore.get?_modify, if_pos rfl,
      Option.map_map]
    rfl

namespace Exec

variable {w : World}

/-- **The queue is worked off.** -/
theorem changesPins_flushed (w : World) : w.ChangesPins (fun t ↦ { t with released := [] })
    (w.pinTable.released.foldl Table.unreference ·) (flushed w) := by
  obtain ⟨tables, hmachine, hothers⟩ := machine_flushed w
  have hpinned := w.binding.machine.get?_foldl_unreference w.binding.tables.pinned w.pinTable.released
  refine ⟨rfl, rfl, ?_, by rw [hmachine], hpinned, fun {id} hid ↦ ?_, by rw [hmachine], by rw [hmachine],
    by rw [hmachine]⟩
  · show (w.pins.modify w.binding.number _)[w.binding.number]? = _
    rw [Array.getElem?_modify, if_pos rfl]
  · rw [World.table?, hmachine]
    exact hothers id hid.symm

/-- The world after a value has been pinned. -/
def pinned (w : World) (v : Value) (r : Int) : World :=
  { w with
    pins := w.pins.modify w.binding.number (·.add r)
    binding.machine.heap := w.binding.machine.heap.modifyTable w.binding.tables.pinned (·.reference v) }

theorem changesPins_pinned (w : World) (v : Value) (r : Int) :
    w.ChangesPins (·.add r) (·.reference v) (pinned w v r) where
  number := rfl
  tables := rfl
  pins := by
    show (w.pins.modify w.binding.number _)[w.binding.number]? = _
    rw [Array.getElem?_modify, if_pos rfl]
  registry := rfl
  pinned := by
    refine (SlotStore.get?_modify _ _ _ _).trans ?_
    rw [if_pos rfl]
    rfl
  others {id} hid := (SlotStore.get?_modify _ _ _ _).trans (if_neg (Ne.symm hid))
  strings := rfl
  functions := rfl
  userdata := rfl

end Exec

/-! ### Preparation -/

namespace Exec

/-- **A machine that has been prepared has a table of pinned objects**, and nothing is in it. -/
theorem hasPins_of_setup {w₀ w : World} (hmachine : w₀.binding.machine = .initial)
    (hpins : w₀.pins[w₀.binding.number]? = some {}) {run : Runner}
    (h : (setup run).outcome w₀ = (.ok (), w)) :
    w.HasPins {} {} ∧ w.pins = w₀.pins ∧ w.binding.number = w₀.binding.number := by
  obtain ⟨t, w₁, h₁, hout, h', -, hlinks⟩ := (ends_setup_outfits hmachine run).ok h
  have hbinding : w.binding = { w₀.binding with machine := w.binding.machine, tables := t } := by
    rw [h'.binding]
    show ({ { w₁.binding with tables := t } with machine := w.binding.machine } : Binding) = _
    rw [h₁.binding]
  have hnumber : w.binding.number = w₀.binding.number := by rw [hbinding]
  have htables : w.binding.tables = t := by rw [hbinding]
  have hregistry : w.binding.machine.registry = w₁.binding.machine.registry := h'.registry
  have hsame : w.pins = w₀.pins := h'.pins.trans h₁.pins
  have happart := hout.apart t.pinned (by simp)
  refine ⟨⟨by rw [hsame, hnumber, hpins], ?_, ?_, ?_, ?_, ?_⟩, hsame, hnumber⟩
  · rw [htables, h'.kept (by simp)]
    exact hout.pinned.1
  · rw [htables, hregistry]
    exact happart.2.1
  · rw [htables]
    exact happart.1
  · rw [htables, hregistry]
    exact hout.cache_ne.1
  · obtain ⟨root, k, hroot, hstrong, -, hk⟩ := hlinks
    exact ⟨root, _, hroot, hstrong, htables ▸ hk⟩

end Exec

namespace Session

variable {c : Catalogue} {registries : List (List PlanStep)} {s s' : Session}

/-- **Nothing is pinned** in any binding. -/
structure Unpinned (s : Session) : Prop where
  size : s.world.pins.size = s.bindings.size
  current_lt : s.bindings.size = 0 ∨ s.current < s.bindings.size
  number : ∀ {k : Nat} {b : Binding}, s.park.bindings[k]? = some b → b.number = k
  hasPins : ∀ {k : Nat} {b : Binding}, s.park.bindings[k]? = some b →
    World.HasPins { s.world with binding := b } {} {}

theorem Unpinned.addBinding (hs : s.Unpinned) {rs : Array Registry} {p : BindingPlan}
    (h : s.addBinding rs p = .ok s') :
    s'.Unpinned ∧ s'.bindings.size = s.bindings.size + 1 := by
  unfold Session.addBinding at h
  extract_lets parked number fresh before world at h
  split at h
  · rename_i w hsetup
    obtain rfl := Except.ok.inj h
    have hparked : parked.bindings.size = s.bindings.size := Array.size_setIfInBounds
    have hnumber : number = s.world.pins.size := hparked.trans hs.size.symm
    have hbefore : world.pins = s.world.pins.push {} := rfl
    have hempty : world.pins[world.binding.number]? = some {} := by
      rw [hbefore, show world.binding.number = number from rfl, hnumber, Array.getElem?_push_size]
    obtain ⟨hpins, hsame, hbinding⟩ := Exec.hasPins_of_setup rfl hempty hsetup
    rw [hbefore] at hsame
    have hsize : number < (parked.bindings.push w.binding).size := by
      rw [Array.size_push]
      exact Nat.lt_succ_self _
    have hcases {k : Nat} {b : Binding}
        (hb : (Session.park ⟨w, parked.bindings.push w.binding, number⟩).bindings[k]? = some b) :
        (k = number ∧ b = w.binding) ∨ (k < number ∧ parked.bindings[k]? = some b) := by
      rw [getElem?_park hsize] at hb
      split at hb
      · exact .inl ⟨‹_›, (Option.some.inj hb).symm⟩
      · rename_i hne
        rw [Array.getElem?_push, if_neg hne] at hb
        exact .inr ⟨(Array.getElem?_eq_some_iff.1 hb).1, hb⟩
    refine ⟨⟨?_, .inr hsize, fun {k b} hb ↦ ?_, fun {k b} hb ↦ ?_⟩, by
      rw [← hparked, Array.size_push]⟩
    · show w.pins.size = (parked.bindings.push w.binding).size
      rw [hsame, Array.size_push, Array.size_push, hparked, hs.size]
    · rcases hcases hb with ⟨rfl, rfl⟩ | ⟨-, hb⟩
      · exact hbinding
      · exact hs.number hb
    · rcases hcases hb with ⟨rfl, rfl⟩ | ⟨hlt, hb⟩
      · exact hpins
      · have hkept : w.pins[b.number]? = s.world.pins[b.number]? := by
          rw [hsame, hs.number hb, Array.getElem?_push, if_neg (by omega)]
        have hspares : World.SparesPins { s.world with binding := b } { w with binding := b } :=
          ⟨rfl, rfl, hkept, rfl, rfl, id, id⟩
        exact hspares.hasPins (hs.hasPins hb)
  · exact absurd h (by simp)
  · exact absurd h (by simp)

theorem Unpinned.foldlM (hs : s.Unpinned) {rs : Array Registry} {plans : List BindingPlan}
    (h : plans.foldlM (fun s p ↦ s.addBinding rs p) s = .ok s') :
    s'.Unpinned ∧ s'.bindings.size = s.bindings.size + plans.length := by
  induction plans generalizing s with
  | nil =>
    obtain rfl := Except.ok.inj h
    exact ⟨hs, rfl⟩
  | cons p plans ih =>
    rw [List.foldlM_cons] at h
    cases hp : s.addBinding rs p with
    | error f =>
      rw [hp] at h
      exact absurd h (by simp [bind, Except.bind])
    | ok s₁ =>
      rw [hp] at h
      obtain ⟨hs₁, hsize₁⟩ := hs.addBinding hp
      obtain ⟨hs', hsize'⟩ := ih hs₁ h
      exact ⟨hs', by rw [hsize', hsize₁, List.length_cons, Nat.add_assoc, Nat.add_comm 1]⟩

/-- A session that has been started sees bindings in which nothing is pinned, under their numbers. -/
theorem exists_unpinned {plans : List BindingPlan} (hne : plans ≠ [])
    (h : start c registries plans = .ok s) {k : Nat} {w : World} (hw : s.seen k = some w) :
    ∃ (s₁ : Session) (d : Desk), s₁.Unpinned ∧ s₁.park.bindings[k]? = some w.binding ∧
      w = { s₁.world with binding := w.binding, desk := d } := by
  have hbegin : Unpinned { world := { host := Host.beginning c registries } } :=
    ⟨rfl, .inl rfl, fun hb ↦ absurd hb (by simp [park]), fun hb ↦ absurd hb (by simp [park])⟩
  obtain ⟨s₁, hfold, rfl⟩ := exists_of_start h
  obtain ⟨hs₁, hsize⟩ := hbegin.foldlM hfold
  have hpos := List.length_pos_iff.2 hne
  have hlt := hs₁.current_lt.resolve_left (by omega)
  rw [seen_turn hlt] at hw
  obtain ⟨w₁, hw₁, rfl⟩ := Option.map_eq_some_iff.1 hw
  obtain ⟨hb, hsame⟩ := binding_of_seen hlt hw₁
  exact ⟨s₁, _, hs₁, hb, congrArg (fun w : World ↦ { w with desk := (s₁.turn 0).world.desk }) hsame⟩

/-- **In a session that has been started nothing is pinned.** -/
theorem hasPins_start {plans : List BindingPlan} (hne : plans ≠ [])
    (h : start c registries plans = .ok s) {k : Nat} {w : World} (hw : s.seen k = some w) :
    w.HasPins {} {} := by
  obtain ⟨s₁, d, hs₁, hb, hsame⟩ := exists_unpinned hne h hw
  have hpins := hs₁.hasPins hb
  rw [hsame]
  exact ⟨hpins.pins, hpins.table, hpins.ne_registry, hpins.ne_cache, hpins.cache_ne_registry, hpins.links⟩

/-- The bindings of a session that has been started are numbered in order. -/
theorem number_start {plans : List BindingPlan} (hne : plans ≠ [])
    (h : start c registries plans = .ok s) {k : Nat} {w : World} (hw : s.seen k = some w) :
    w.binding.number = k := by
  obtain ⟨s₁, _, hs₁, hb, -⟩ := exists_unpinned hne h hw
  exact hs₁.number hb

end Session

end ObjectBridge
