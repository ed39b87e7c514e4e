import Mathlib.Data.List.Perm.Subperm
import ObjectBridge.Proofs.Retiring

/-!
# How a full collection settles

A full collection runs cycles until one has nothing to finalize. Where userdata carry no finalizer
but that of the bridge (`World.Furnished`), no cycle brings anything back: what a cycle has found due is
out of reach afterwards as well, and the next cycle removes it. Each cycle that has something to
finalize flags at least one userdata that was not flagged, so there are no more of them than such
userdata, and the full collection ends (`Exec.ends_collectAll`).

`World.Round` says what one cycle comes to, and `World.Settles` what they all come to.
-/

namespace ObjectBridge

/-- The function of the bridge that runs, if it is one. -/
def Callable.builtin? : Option Callable → Option Builtin
  | some (.builtin b) => some b
  | _ => none

theorem Callable.builtin?_eq_some_iff (c : Option Callable) (b : Builtin) :
    builtin? c = some b ↔ c = some (.builtin b) := by
  rcases c with _ | _ | _ | _ | _ <;> simp [builtin?]

/-- Whether a function is one that the bridge provides can be told, though not whether any two functions
are the same. -/
instance decidableBuiltin (c : Option Callable) (b : Builtin) : Decidable (c = some (.builtin b)) :=
  decidable_of_iff _ (Callable.builtin?_eq_some_iff c b)

namespace World

variable {w w₁ w' : World} {id : Nat} {ids : List Nat}

/-! ### Worlds that are fit for a collection -/

/-- **Userdata carry no finalizer but that of the bridge**, and those with records have it, in metatables
that keep it alive. -/
structure Furnished (w : World) : Prop where
  only : ∀ id, (w.finalizer id).isNil = true ∨ ∃ f, w.finalizer id = .function f ∧
    ∀ fn, w.binding.machine.heap.functions.get? f = some fn → fn.callable = .builtin .finalize
  bridge : ∀ {id r}, w.record? id = some r →
    w.binding.machine.callable? (w.finalizer id) = some (.builtin .finalize)
  strong : ∀ {id r mt t}, w.record? id = some r →
    w.binding.machine.heap.metatable? (.userdata id) = some mt →
    w.binding.machine.heap.tables.get? mt = some t → t.weakValues = false

theorem Furnished.tame (hw : w.Furnished) (id : Nat) : w.Tame id := by
  cases hr : w.record? id with
  | some r => exact .bridge (hw.bridge hr)
  | none =>
    rcases hw.only id with h | ⟨f, h, hf⟩
    · exact .none hr h
    · cases hfn : w.binding.machine.heap.functions.get? f with
      | some fn =>
        refine .bridge ?_
        rw [h, Machine.callable?, hfn, Option.map_some, hf fn hfn]
      | none => exact .dead hr h (by rw [Machine.callable?, hfn]; rfl)

/-- It is enough to look at the userdata that are there. -/
theorem furnished_of_ids (h : ∀ id ∈ w.binding.machine.heap.userdata.ids,
    (w.finalizer id).isNil = true ∧ w.record? id = none ∨
      w.binding.machine.callable? (w.finalizer id) = some (.builtin .finalize) ∧
        ∀ mt ∈ w.binding.machine.heap.metatable? (.userdata id),
          ∀ t ∈ w.binding.machine.heap.tables.get? mt, t.weakValues = false) : w.Furnished := by
  have hrecord {id : Nat} {r : Record} (hr : w.record? id = some r) :
      id ∈ w.binding.machine.heap.userdata.ids :=
    (SlotStore.mem_ids _).2 (live_of_record? hr)
  refine ⟨fun id ↦ ?_, fun {id r} hr ↦ ?_, fun {id r mt t} hr hmt ht ↦ ?_⟩
  · by_cases hid : id ∈ w.binding.machine.heap.userdata.ids
    · refine (h id hid).imp And.left fun ⟨hf, _⟩ ↦ ?_
      cases hv : w.finalizer id with
      | function f =>
        rw [hv] at hf
        obtain ⟨fn, hfn, hcallable⟩ := Option.map_eq_some_iff.1 hf
        exact ⟨f, rfl, fun fn' hfn' ↦ by rwa [Option.some.inj (hfn'.symm.trans hfn)]⟩
      | _ =>
        rw [hv] at hf
        exact absurd hf (by simp [Machine.callable?])
    · -- what is not there has no metatable
      have hnone : w.binding.machine.heap.userdata.get? id = none := by
        rwa [SlotStore.mem_ids, SlotStore.live, Option.isSome_iff_ne_none, not_not] at hid
      have hmetatable : w.binding.machine.metatable? (.userdata id) = none := by
        show (w.binding.machine.heap.userdata.get? id).bind _ = none
        rw [hnone, Option.bind_none]
      exact Or.inl (by rw [finalizer, Machine.metafield, hmetatable]; rfl)
  · rcases h id (hrecord hr) with ⟨-, hnone⟩ | ⟨hf, -⟩
    · exact absurd (hnone.symm.trans hr) (by simp)
    · exact hf
  · rcases h id (hrecord hr) with ⟨-, hnone⟩ | ⟨-, hstrong⟩
    · exact absurd (hnone.symm.trans hr) (by simp)
    · exact hstrong mt hmt t ht

/-- A world in which cycles can be run: frames are in order, no reference strays, strings are found by
their texts, and finalizers are those of the bridge, which there is a frame left for. -/
structure Kempt (w : World) : Prop where
  framed : w.Framed
  numbered : w.binding.machine.heap.Numbered w.binding.machine.roots
  strings : w.binding.machine.heap.strings.Consistent
  furnished : w.Furnished
  depth_lt : w.binding.machine.frames.length < w.binding.settings.maxDepth

/-- What tells that a world is one of these. It can be worked out. -/
def LooksKempt (w : World) : Prop :=
  w.binding.machine.frames.Pairwise (· ≥ ·) ∧
    w.binding.machine.base ≤ w.binding.machine.stack.size ∧
    w.binding.machine.frames.length < w.binding.settings.maxDepth ∧
    w.binding.machine.heap.Numbered w.binding.machine.roots ∧
    w.binding.machine.heap.strings.Consistent ∧
    ∀ id ∈ w.binding.machine.heap.userdata.ids,
      (w.finalizer id).isNil = true ∧ w.record? id = none ∨
        w.binding.machine.callable? (w.finalizer id) = some (.builtin .finalize) ∧
          ∀ mt ∈ w.binding.machine.heap.metatable? (.userdata id),
            ∀ t ∈ w.binding.machine.heap.tables.get? mt, t.weakValues = false

instance : DecidablePred LooksKempt := fun _ ↦ inferInstanceAs (Decidable (_ ∧ _))

theorem LooksKempt.kempt (h : w.LooksKempt) : w.Kempt := by
  obtain ⟨hsorted, hbase, hdepth, hnumbered, hstrings, hids⟩ := h
  exact ⟨⟨hsorted, hbase, hdepth.le⟩, hnumbered, hstrings, furnished_of_ids hids, hdepth⟩

theorem Retires.furnished (h : w.Retires ids w') (hw : w.Furnished) : w'.Furnished where
  only id := by
    rw [finalizer, h.metafield, h.functions]
    exact hw.only id
  bridge {id r} hr := by
    rw [finalizer, h.metafield, h.callable?]
    cases hr₀ : w.record? id with
    | some r₀ => exact hw.bridge hr₀
    | none => exact absurd ((h.record?_eq_none hr₀).symm.trans hr) (by simp)
  strong {id r mt t'} hr hmt ht' := by
    obtain ⟨u', hu', hmt'⟩ := Option.bind_eq_some_iff.1 hmt
    obtain ⟨u, hu, hmetatable, -⟩ := h.heap.userdata hu'
    obtain ⟨t, ht, hwanes⟩ := h.heap.table ht'
    rw [hwanes.weakValues]
    cases hr₀ : w.record? id with
    | some r₀ =>
      have hmt₀ : w.binding.machine.heap.metatable? (.userdata id) = some mt :=
        Option.bind_eq_some_iff.2 ⟨u, hu, hmetatable ▸ hmt'⟩
      exact hw.strong hr₀ hmt₀ ht
    | none => exact absurd ((h.record?_eq_none hr₀).symm.trans hr) (by simp)

theorem Retires.kempt (h : w.Retires ids w') (hw : w.Kempt) : w'.Kempt where
  framed := h.framed hw.framed
  numbered := h.heap.numbered (fun v hv ↦ by rwa [h.roots] at hv) hw.numbered
  strings := by
    rw [h.strings]
    exact hw.strings
  furnished := h.furnished hw.furnished
  depth_lt := by
    rw [h.frames, h.settings]
    exact hw.depth_lt

/-! ### Furnished worlds after a cycle -/

/-- A field of a metatable is gone, or it is what it was. -/
theorem metafield_of_wanes {m m' : Machine} (h : m.heap.Wanes m'.heap) (id : Nat) (name : String) :
    m'.metafield (.userdata id) name = .nil ∨
      m'.metafield (.userdata id) name = m.metafield (.userdata id) name := by
  cases hmt' : m'.metatable? (.userdata id) with
  | none => exact Or.inl (by rw [Machine.metafield, hmt'])
  | some mt =>
    obtain ⟨u', hu', hmetatable'⟩ := Option.bind_eq_some_iff.1 hmt'
    obtain ⟨u, hu, hmetatable, -⟩ := h.userdata hu'
    have hmt : m.metatable? (.userdata id) = some mt :=
      Option.bind_eq_some_iff.2 ⟨u, hu, hmetatable ▸ hmetatable'⟩
    rw [Machine.metafield, hmt', Machine.metafield, hmt]
    simp only [Heap.rawGetField]
    cases hs : m'.heap.strings.lookup name with
    | none => exact Or.inl rfl
    | some s =>
      simp only [h.lookup hs, Heap.rawGet]
      cases ht' : m'.heap.tables.get? mt with
      | none => exact Or.inl rfl
      | some t' =>
        obtain ⟨t, ht, hwanes⟩ := h.table ht'
        simp only [ht, Table.rawGet, Value.key?, Table.get]
        cases hk : t'.entries.find? (.string s) with
        | none => exact Or.inl rfl
        | some v => exact Or.inr (by rw [hwanes.old hk])

/-- Where the finalizer of a userdata is. -/
theorem exists_of_finalizer {c : Callable}
    (h : w.binding.machine.callable? (w.finalizer id) = some c) : ∃ mt s t f,
      w.binding.machine.heap.metatable? (.userdata id) = some mt ∧
      w.binding.machine.heap.strings.lookup "__gc" = some s ∧
      w.binding.machine.heap.tables.get? mt = some t ∧
      t.entries.find? (.string s) = some (.function f) ∧
      (w.binding.machine.heap.functions.get? f).map (·.callable) = some c := by
  have hnil : w.binding.machine.callable? .nil ≠ some c := by simp [Machine.callable?]
  rw [finalizer, Machine.metafield] at h
  cases hmt : w.binding.machine.metatable? (.userdata id) with
  | none =>
    rw [hmt] at h
    exact absurd h hnil
  | some mt =>
    simp only [hmt, Heap.rawGetField] at h
    cases hs : w.binding.machine.heap.strings.lookup "__gc" with
    | none =>
      rw [hs] at h
      exact absurd h hnil
    | some s =>
      simp only [hs, Heap.rawGet] at h
      cases ht : w.binding.machine.heap.tables.get? mt with
      | none =>
        rw [ht] at h
        exact absurd h hnil
      | some t =>
        simp only [ht, Table.rawGet, Value.key?, Table.get] at h
        cases hk : t.entries.find? (.string s) with
        | none =>
          rw [hk] at h
          exact absurd h hnil
        | some v =>
          rw [hk, Option.getD_some] at h
          cases v with
          | function f => exact ⟨mt, s, t, f, hmt, rfl, ht, hk, h⟩
          | _ => exact absurd h (by simp [Machine.callable?])

/-- A userdata with a finalizer that is kept keeps the finalizer, if its metatable keeps it. -/
theorem finalizer_of_collects {m : Machine} {c : Collection} {f : Callable}
    (hc : w.binding.machine.heap.Collects w.binding.machine.roots c) (hm : m.heap = c.heap)
    (hconsistent : w.binding.machine.heap.strings.Consistent) (hconsistent' : m.heap.strings.Consistent)
    (hwanes : w.binding.machine.heap.Wanes m.heap)
    (hkept : w.binding.machine.heap.Kept w.binding.machine.roots (.userdata id))
    (hlive : m.heap.userdata.live id = true)
    (hf : w.binding.machine.callable? (w.finalizer id) = some f)
    (hstrong : ∀ {mt t}, w.binding.machine.heap.metatable? (.userdata id) = some mt →
      w.binding.machine.heap.tables.get? mt = some t → t.weakValues = false) :
    m.callable? (m.metafield (.userdata id) "__gc") = some f := by
  obtain ⟨mt, s, t, g, hmt, hs, ht, hk, hg⟩ := exists_of_finalizer hf
  have hweak := hstrong hmt ht
  obtain ⟨u, hu, hmetatable⟩ := Option.bind_eq_some_iff.1 hmt
  -- The metatable is kept with the userdata, and the finalizer and its name with the metatable.
  have htable : w.binding.machine.heap.Kept w.binding.machine.roots (.table mt) := by
    refine hkept.link ?_
    rw [Heap.links, hu]
    exact List.mem_append_left _ (by rw [hmetatable]; exact List.mem_singleton_self _)
  have hentry {r : Ref} (hr : r ∈ t.entryLinks (.string s, .function g)) :
      w.binding.machine.heap.Kept w.binding.machine.roots r := by
    refine htable.link ?_
    rw [Heap.links, ht]
    exact List.mem_append_right _ (List.mem_flatMap.2 ⟨_, (t.entries.mem_toList_iff _ _).2 hk, hr⟩)
  have hstring := hentry (r := .string s) (by simp [Table.entryLinks, Key.ref?])
  have hfunction := hentry (r := .function g)
    (by simp [Table.entryLinks, Table.holds, hweak, Value.ref?])
  have ht' : m.heap.tables.get? mt = some t := by
    rw [hm]
    exact hc.table mt t ht htable fun h ↦ by simp [hweak] at h
  have hs' : m.heap.strings.lookup "__gc" = some s := by
    rw [hconsistent'.lookup_iff, hm, hc.text s hstring]
    exact (hconsistent.lookup_iff _ _).1 hs
  have hmt' : m.metatable? (.userdata id) = some mt := by
    obtain ⟨u', hu'⟩ := m.heap.userdata.live_iff.1 hlive
    obtain ⟨u₀, hu₀, hmetatable', -⟩ := hwanes.userdata hu'
    obtain rfl := Option.some.inj (hu.symm.trans hu₀)
    exact Option.bind_eq_some_iff.2 ⟨u', hu', hmetatable'.trans hmetatable⟩
  simp only [Machine.metafield, hmt', Heap.rawGetField, hs', Heap.rawGet, ht', Table.rawGet,
    Value.key?, Table.get, hk, Option.getD_some, Machine.callable?]
  rw [hm, hc.function g hfunction]
  exact hg

/-! ### The world after a cycle, before any finalizer is run -/

section Swept

variable {c : Collection}

theorem machine_swept (hd : w.Drained) (c : Collection) : (w.swept c).binding.machine =
    { w.binding.machine with heap := c.heap, tally := w.binding.machine.tally.add c.tally } := by
  rw [swept, hd.flushed]

theorem live_swept (hd : w.Drained)
    (hc : w.binding.machine.heap.Collects w.binding.machine.roots c) (id : Nat) :
    (w.swept c).Live id ↔
      w.Live id ∧ w.binding.machine.heap.Kept w.binding.machine.roots (.userdata id) := by
  rw [Live, machine_swept hd]
  exact hc.live_iff (.userdata id)

/-- What is left has the record that it had. -/
theorem record?_swept (hd : w.Drained)
    (hc : w.binding.machine.heap.Collects w.binding.machine.roots c) (hlive : (w.swept c).Live id) :
    (w.swept c).record? id = w.record? id := by
  have hheap : (w.swept c).binding.machine.heap = c.heap := by rw [machine_swept hd]
  obtain ⟨u', hu'⟩ := (SlotStore.live_iff _).1 hlive
  rw [hheap] at hu'
  obtain ⟨u, hu, hcontent⟩ := hc.userdata_content hu'
  show ((w.swept c).binding.machine.heap.userdata.get? id).bind _ =
    (w.binding.machine.heap.userdata.get? id).bind _
  rw [hheap, hu', hu, Option.bind_some, Option.bind_some, Userdata.record?, hcontent]
  rfl

theorem live_of_record?_swept {r : Record} (hr : (w.swept c).record? id = some r) :
    (w.swept c).Live id := by
  obtain ⟨u, hu, -⟩ := Option.bind_eq_some_iff.1 hr
  exact (SlotStore.live_iff _).2 ⟨u, hu⟩

theorem wanes_swept (hd : w.Drained)
    (hc : w.binding.machine.heap.collect w.binding.machine.roots = .ok c) :
    w.binding.machine.heap.Wanes (w.swept c).binding.machine.heap := by
  rw [machine_swept hd]
  exact Heap.wanes_of_collect hc

/-- What is due is still there. -/
theorem live_swept_of_mem_due (hd : w.Drained)
    (hc : w.binding.machine.heap.Collects w.binding.machine.roots c) (hid : id ∈ c.due) :
    (w.swept c).Live id := by
  have hdue := (hc.mem_due_iff id).1 hid
  obtain ⟨u, hu, -⟩ := hdue.pending
  exact (live_swept hd hc id).2 ⟨(SlotStore.live_iff _).2 ⟨u, hu⟩, .root (Or.inr ⟨id, rfl, hdue⟩)⟩

theorem WeakCache.swept (hweak : w.WeakCache) (hd : w.Drained)
    (hc : w.binding.machine.heap.collect w.binding.machine.roots = .ok c) :
    (w.swept c).WeakCache := fun t' ht' ↦ by
  have hcache : (w.swept c).binding.tables.cache = w.binding.tables.cache := rfl
  rw [hcache] at ht'
  obtain ⟨t, ht, hwanes⟩ := (wanes_swept hd hc).table ht'
  rw [hwanes.weakValues]
  exact hweak t ht

theorem kempt_swept (hw : w.Kempt) (hd : w.Drained)
    (hc : w.binding.machine.heap.collect w.binding.machine.roots = .ok c) : (w.swept c).Kempt := by
  have hcollects := Heap.collects_of_collect hc
  have hmachine := machine_swept hd c
  have hheap : (w.swept c).binding.machine.heap = c.heap := by rw [hmachine]
  have hwanes := wanes_swept hd hc
  have hstrings : (w.swept c).binding.machine.heap.strings.Consistent := by
    obtain ⟨m, kept, -, -, -, hswept, -⟩ := Heap.exists_of_collect hc
    rw [hheap, hswept]
    refine StringPool.Consistent.foldl_erase ?_ _
    rw [Heap.settle, Heap.strings_flagFinalized]
    exact hw.strings
  have hold {id r} (hr : (w.swept c).record? id = some r) : w.record? id = some r :=
    (record?_swept hd hcollects (live_of_record?_swept hr)).symm.trans hr
  have hstrong {id r mt t} (hr : w.record? id = some r)
      (hmt : w.binding.machine.heap.metatable? (.userdata id) = some mt)
      (ht : w.binding.machine.heap.tables.get? mt = some t) := hw.furnished.strong hr hmt ht
  refine ⟨Exec.framed_swept hw.framed c, hwanes.numbered (fun v hv ↦ ?_) hw.numbered, hstrings,
    ⟨fun id ↦ ?_, fun {id r} hr ↦ ?_, fun {id r mt t'} hr hmt ht' ↦ ?_⟩, ?_⟩
  · rw [hmachine] at hv
    exact hv
  · rcases metafield_of_wanes hwanes id "__gc" with h | h
    · exact Or.inl (by rw [finalizer, h]; rfl)
    · rw [finalizer, h]
      refine (hw.furnished.only id).imp_right ?_
      rintro ⟨f, hf, hfn⟩
      exact ⟨f, hf, fun fn h ↦ hfn fn (hwanes.function h)⟩
  · have hlive := live_of_record?_swept hr
    exact finalizer_of_collects hcollects hheap hw.strings hstrings hwanes
      ((live_swept hd hcollects id).1 hlive).2 hlive (hw.furnished.bridge (hold hr))
      (hstrong (hold hr))
  · obtain ⟨u', hu', hmt'⟩ := Option.bind_eq_some_iff.1 hmt
    obtain ⟨u, hu, hmetatable, -⟩ := hwanes.userdata hu'
    obtain ⟨t, ht, hsheds⟩ := hwanes.table ht'
    rw [hsheds.weakValues]
    exact hstrong (hold hr) (Option.bind_eq_some_iff.2 ⟨u, hu, hmetatable ▸ hmt'⟩) ht
  · rw [hmachine]
    exact hw.depth_lt

/-- **A cycle destroys what the userdata that it removes own**, each payload once. -/
theorem exists_host_swept
    (hc : w.binding.machine.heap.collect w.binding.machine.roots = .ok c) :
    ∃ lost : List Nat, lost.Nodup ∧
      (∀ id, id ∈ lost ↔ w.Live id ∧
        ¬ w.binding.machine.heap.Kept w.binding.machine.roots (.userdata id)) ∧
      (w.swept c).host = w.hostWithout (lost.filterMap w.payload?) := by
  obtain ⟨m, kept, -, hkept, -, -, hremoved⟩ := Heap.exists_of_collect hc
  have hget (id : Nat) : ((w.binding.machine.heap.settle m c.due).userdata.get? id).bind
      Userdata.record? = w.record? id := by
    rw [Heap.get?_settle_userdata]
    split
    · show _ = (w.binding.machine.heap.userdata.get? id).bind _
      cases w.binding.machine.heap.userdata.get? id <;> rfl
    · rfl
  have hlive (id : Nat) : (w.binding.machine.heap.settle m c.due).userdata.live id = true ↔
      w.Live id := by
    rw [Live, SlotStore.live, Heap.get?_settle_userdata]
    split
    · rw [Option.isSome_map, SlotStore.live]
    · rfl
  refine ⟨(w.binding.machine.heap.settle m c.due).deadUserdata kept, (SlotStore.nodup_ids _).filter _,
    fun id ↦ ?_, ?_⟩
  · rw [Heap.deadUserdata, List.mem_filter, SlotStore.mem_ids, hlive, Bool.not_eq_true',
      ← Bool.not_eq_true, hkept]
  · show c.removed.foldl Host.dropUserdata w.host = _
    rw [hremoved, hostWithout]
    generalize (w.binding.machine.heap.settle m c.due).deadUserdata kept = lost
    generalize w.host = host
    induction lost generalizing host with
    | nil => rfl
    | cons id lost ih =>
      rw [List.filterMap_cons, List.filterMap_cons, payload?, ← hget id]
      cases (w.binding.machine.heap.settle m c.due).userdata.get? id with
      | none => exact ih host
      | some u =>
        simp only [Option.bind_some, List.foldl_cons, Host.dropUserdata]
        cases u.record?.bind (·.payload) with
        | none => exact ih host
        | some p => exact ih (host.dropPayload p)

end Swept

/-! ### One cycle -/

/-- A userdata that has not been finalized, and has a record of a key. -/
def Bears (w : World) (k : CacheKey) (id : Nat) : Prop :=
  ∃ u r, w.binding.machine.heap.userdata.get? id = some u ∧ u.finalized = false ∧
    u.record? = some r ∧ r.cacheKey w.binding.registry = k

/-- **Every entry of the identity cache is that of a userdata that has not been finalized**, and has a
record of the key, as far as keys tell their records. -/
def Tidy (w : World) : Prop :=
  ∀ k e, k.Faithful w.binding.registry → w.binding.cache.find? k = some e → w.Bears k e.userdata

/-- What can be reached, also through keys that have gone with their entries since `w`. -/
def ReachesSince (w' w : World) : Ref → Prop :=
  w'.binding.machine.heap.Reaches {r | r ∈ w'.binding.machine.roots.filterMap Value.ref? ∨
    w.binding.machine.heap.Shed w'.binding.machine.heap r}

/-- **What a cycle comes to** that finds the userdata `due` to be finalized, and loses the userdata
`lost`. -/
structure Round (w : World) (due lost : List Nat) (w' : World) : Prop where
  kempt : w'.Kempt
  drained : w'.Drained
  wanes : w.binding.machine.heap.Wanes w'.binding.machine.heap
  roots : w'.binding.machine.roots = w.binding.machine.roots
  nodup_due : due.Nodup
  nodup_lost : lost.Nodup
  mem_due : ∀ id, id ∈ due ↔ w.binding.machine.heap.Due w.binding.machine.roots id
  mem_lost : ∀ id, id ∈ lost ↔
    w.Live id ∧ ¬ w.binding.machine.heap.Kept w.binding.machine.roots (.userdata id)
  live : ∀ id, w'.Live id ↔
    w.Live id ∧ w.binding.machine.heap.Kept w.binding.machine.roots (.userdata id)
  record? : ∀ {id}, w'.Live id →
    w'.record? id = if id ∈ due then (w.record? id).map Record.retired else w.record? id
  flag : ∀ {id u'}, w'.binding.machine.heap.userdata.get? id = some u' →
    ∃ u, w.binding.machine.heap.userdata.get? id = some u ∧
      (u'.finalized = false ↔ u.finalized = false ∧ id ∉ due)
  host : w'.host = w.hostWithout ((lost ++ due).filterMap w.payload?)
  registry : w'.binding.registry = w.binding.registry
  tidy : w.Tidy → w'.Tidy
  weakCache : w.WeakCache → w'.WeakCache
  firm : w.WeakCache → ∀ {r}, w.binding.machine.heap.Firm w.binding.machine.roots r →
    w'.binding.machine.heap.Firm w'.binding.machine.roots r
  passes : ∀ {R : Realm}, w.Sound R → ∃ w₁, w.Passes R ∅ w.unreached w₁ ∧ w₁.Leads R ∅ w'
  reached : due = [] → ∀ {r}, w.binding.machine.heap.Rooted w.binding.machine.roots r →
    w'.ReachesSince w r

/-- A userdata with a record that has not been finalized is due unless it is reached. -/
theorem Furnished.rooted_or_due (hw : w.Furnished) {u : Userdata} {r : Record}
    (hu : w.binding.machine.heap.userdata.get? id = some u) (hr : u.record? = some r)
    (hflag : u.finalized = false) :
    w.binding.machine.heap.Rooted w.binding.machine.roots (.userdata id) ∨
      w.binding.machine.heap.Due w.binding.machine.roots id := by
  by_cases hrooted : w.binding.machine.heap.Rooted w.binding.machine.roots (.userdata id)
  · exact Or.inl hrooted
  · refine Or.inr ⟨hrooted, u, hu, hflag, ?_⟩
    have hid : w.record? id = some r := Option.bind_eq_some_iff.2 ⟨u, hu, hr⟩
    obtain ⟨mt, s, t, f, hmt, hs, ht, hk, -⟩ := exists_of_finalizer (hw.bridge hid)
    have hmetatable : u.metatable = some mt := by
      obtain ⟨u₀, hu₀, hmt₀⟩ := Option.bind_eq_some_iff.1 hmt
      obtain rfl := Option.some.inj (hu.symm.trans hu₀)
      exact hmt₀
    rw [Heap.hasFinalizer, hmetatable]
    simp only [Heap.rawGetField, hs, Heap.rawGet, ht, Table.rawGet, Value.key?, Table.get, hk,
      Option.getD_some, Value.isNil]
    rfl

theorem Retires.live_iff (h : w.Retires ids w') (id : Nat) : w'.Live id ↔ w.Live id := by
  rw [Live, SlotStore.live_iff, Live, SlotStore.live_iff]
  constructor
  · rintro ⟨u', hu'⟩
    obtain ⟨u, hu, -⟩ := h.heap.userdata hu'
    exact ⟨u, hu⟩
  · rintro ⟨u, hu⟩
    obtain ⟨u', hu', -⟩ := h.userdata hu
    exact ⟨u', hu'⟩

section Round

variable {c : Collection} (hd : w.Drained)
  (hc : w.binding.machine.heap.collect w.binding.machine.roots = .ok c)
  (h : (w.swept c).Retires c.due w')
include hd hc h

/-- What is due is finalized, and nothing else. -/
theorem Retires.finalized_iff {u' : Userdata}
    (hu' : w'.binding.machine.heap.userdata.get? id = some u') :
    ∃ u, w.binding.machine.heap.userdata.get? id = some u ∧
      (u'.finalized = false ↔ u.finalized = false ∧ id ∉ c.due) := by
  have hcollects := Heap.collects_of_collect hc
  have hheap : (w.swept c).binding.machine.heap = c.heap := by rw [machine_swept hd]
  obtain ⟨u₁, hu₁, -⟩ := h.heap.userdata hu'
  obtain ⟨u'', hu'', -, hflag⟩ := h.userdata hu₁
  obtain rfl := Option.some.inj (hu'.symm.trans hu'')
  have hid : (w.swept c).Live id := (SlotStore.live_iff _).2 ⟨u₁, hu₁⟩
  rw [hheap] at hu₁
  by_cases hmem : id ∈ c.due
  · have hdue := (hcollects.mem_due_iff id).1 hmem
    obtain ⟨u, hu, -⟩ := hdue.pending
    obtain rfl := Option.some.inj (hu₁.symm.trans (hcollects.userdata_flagged id u hu hdue))
    exact ⟨u, hu, by simp [hflag, hmem]⟩
  · have hsame := hcollects.userdata id ((live_swept hd hcollects id).1 hid).2 fun hdue ↦
      hmem ((hcollects.mem_due_iff id).2 hdue)
    exact ⟨u₁, hsame ▸ hu₁, by simp [hflag, hmem]⟩

/-- What is due loses its payload after what is removed has lost its own. -/
theorem Retires.host_swept {lost : List Nat}
    (hhost : (w.swept c).host = w.hostWithout (lost.filterMap w.payload?)) :
    w'.host = w.hostWithout ((lost ++ c.due).filterMap w.payload?) := by
  have hcollects := Heap.collects_of_collect hc
  have hpayload : c.due.filterMap (w.swept c).payload? = c.due.filterMap w.payload? :=
    List.filterMap_congr fun id hid ↦ by
      rw [payload?, record?_swept hd hcollects (live_swept_of_mem_due hd hcollects hid), payload?]
  rw [h.host, hostWithout, hpayload, hhost, hostWithout, hostWithout, List.filterMap_append,
    List.foldl_append]

theorem Retires.tidy (hw : w.Furnished) (htidy : w.Tidy) : w'.Tidy := fun k e hf he ↦ by
  have hcollects := Heap.collects_of_collect hc
  rw [h.registry] at hf
  rw [Bears, h.registry]
  obtain ⟨he, hnew⟩ := h.cache he
  obtain ⟨u, r, hu, hflag, hr, hk⟩ := htidy k e hf he
  have hrecord : w.record? e.userdata = some r := Option.bind_eq_some_iff.2 ⟨u, hu, hr⟩
  -- If the userdata were due, its entry would have been forgotten.
  have hnotdue : ¬ w.binding.machine.heap.Due w.binding.machine.roots e.userdata := fun hdue ↦ by
    have hmem := (hcollects.mem_due_iff _).2 hdue
    have hlive := live_swept_of_mem_due hd hcollects hmem
    exact hnew _ hmem r ((record?_swept hd hcollects hlive).trans hrecord) hk rfl
  have hkept : w.binding.machine.heap.Kept w.binding.machine.roots (.userdata e.userdata) :=
    ((hw.rooted_or_due hu hr hflag).resolve_right hnotdue).kept
  have hmem : e.userdata ∉ c.due := fun hmem ↦ hnotdue ((hcollects.mem_due_iff _).1 hmem)
  have hu₁ : (w.swept c).binding.machine.heap.userdata.get? e.userdata = some u := by
    rw [machine_swept hd, hcollects.userdata _ hkept hnotdue]
    exact hu
  obtain ⟨u', hu', -, hflag'⟩ := h.userdata hu₁
  have hrecord' : w'.record? e.userdata = some r := by
    rw [h.record?, if_neg hmem, record?_swept hd hcollects ((SlotStore.live_iff _).2 ⟨u, hu₁⟩)]
    exact hrecord
  obtain ⟨u'', hu'', hr'⟩ := Option.bind_eq_some_iff.1 hrecord'
  obtain rfl := Option.some.inj (hu'.symm.trans hu'')
  exact ⟨u', r, hu', hflag'.trans hflag, hr', hk⟩

theorem Retires.firm (hweak : w.WeakCache) {r : Ref}
    (hr : w.binding.machine.heap.Firm w.binding.machine.roots r) :
    w'.binding.machine.heap.Firm w'.binding.machine.roots r := by
  have hr' := (Heap.collects_of_collect hc).firm hr
  have hmachine := machine_swept hd c
  have hheap : (w.swept c).binding.machine.heap = c.heap := by rw [hmachine]
  rw [← hheap] at hr'
  rw [h.roots, hmachine]
  refine hr'.mono fun {x} _ ↦ ?_
  rw [h.firmLinks w.drained_flushed (hweak.swept hd hc)]
  exact List.Subset.refl _

theorem Retires.passes {R : Realm} (hsound : w.Sound R) :
    ∃ w₁, w.Passes R ∅ w.unreached w₁ ∧ w₁.Leads R ∅ w' := by
  have hthin : w.Passes R ∅ w.unreached (w.withBinding { w.binding.machine with
      heap := c.heap, tally := w.binding.machine.tally.add c.tally } w.binding.cache) :=
    .thin hsound ⟨Heap.thins_of_collect hc, rfl⟩
  have hpasses : w.Passes R ∅ w.unreached (w.swept c) := by
    rw [swept, hd.flushed]
    exact hthin.host (Host.Evolves.lasting.dropAll _ c.removed)
  exact ⟨_, hpasses, h.leads hpasses.sound⟩

/-- **A cycle, and then the finalizers that it has found due.** -/
theorem Retires.round (hw : w.Kempt) (hnone : c.due = [] → w' = w.swept c) :
    ∃ lost, w.Round c.due lost w' := by
  have hcollects := Heap.collects_of_collect hc
  have hmachine := machine_swept hd c
  have hlive (id : Nat) := (h.live_iff id).trans (live_swept hd hcollects id)
  obtain ⟨lost, hnodup, hlost, hhost⟩ := exists_host_swept hc
  exact ⟨lost, {
    kempt := h.kempt (kempt_swept hw hd hc)
    drained := h.drained w.drained_flushed
    wanes := (wanes_swept hd hc).trans h.heap
    roots := by
      rw [h.roots, hmachine]
      rfl
    nodup_due := hcollects.nodup_due
    nodup_lost := hnodup
    mem_due := hcollects.mem_due_iff
    mem_lost := hlost
    live := hlive
    record? := fun {id} hid ↦ by rw [h.record?, record?_swept hd hcollects ((h.live_iff id).1 hid)]
    flag := h.finalized_iff hd hc
    host := h.host_swept hd hc hhost
    registry := h.registry
    tidy := h.tidy hd hc hw.furnished
    weakCache := fun hweak ↦ h.weakCache (hweak.swept hd hc)
    firm := h.firm hd hc
    passes := h.passes hd hc
    reached := fun hnil r hr ↦ by
      obtain rfl := hnone hnil
      rw [ReachesSince, hmachine]
      exact hcollects.reaches_or_shed hnil hr }⟩

end Round

end World

namespace Exec

variable {w : World}

/-- **One cycle of a collection, and the finalizers that it has found due.** -/
theorem ends_collect_round (hw : w.Kempt) (hd : w.Drained) (fuel : Nat) :
    Ends (collect (runner fuel)) (fun n w' ↦ ∃ due lost, n = due.length ∧ w.Round due lost w')
      (fun _ _ ↦ False) w := by
  obtain ⟨c, hc⟩ := hw.numbered.collect_ok
  simp only [collect, sweep, ends_bind, ends_flushPins, ends_machine, hd.flushed, hc,
    ends_modifyMachine, ends_modifyHost, ends_pure]
  have hswept : { w with
      host := c.removed.foldl Host.dropUserdata w.host
      binding.machine := { w.binding.machine with
        heap := c.heap
        tally := w.binding.machine.tally.add c.tally } } = w.swept c := by
    rw [World.swept, hd.flushed]
  rw [hswept]
  have hkempt := World.kempt_swept hw hd hc
  have hround {w' : World} (h : (w.swept c).Retires c.due w') (hnone : c.due = [] → w' = w.swept c) :
      ∃ due lost, c.due.length = due.length ∧ w.Round due lost w' := by
    obtain ⟨lost, h⟩ := h.round hd hc hw hnone
    exact ⟨c.due, lost, rfl, h⟩
  cases hdue : c.due with
  | nil =>
    rw [hdue] at hround
    exact hround (.refl _) fun _ ↦ rfl
  | cons id ids =>
    rw [← hdue]
    refine (ends_finalizers hkempt.framed w.drained_flushed (fun id _ ↦ hkempt.furnished.tame id)
      (Heap.collects_of_collect hc).nodup_due hkempt.depth_lt fuel).imp
        (fun _ w' h ↦ hround h fun hnil ↦ ?_) fun _ _ h ↦ h
    exact absurd (hdue.symm.trans hnil) (by simp)

end Exec

namespace World

variable {w w₁ w' : World} {due lost : List Nat} {id : Nat}

/-! ### All cycles -/

/-- The userdata that have not been finalized. -/
def unfinalized (w : World) : List Nat :=
  w.binding.machine.heap.userdata.ids.filter fun id ↦
    (w.binding.machine.heap.userdata.get? id).any fun u ↦ !u.finalized

theorem mem_unfinalized {id : Nat} : id ∈ w.unfinalized ↔
    ∃ u, w.binding.machine.heap.userdata.get? id = some u ∧ u.finalized = false := by
  rw [unfinalized, List.mem_filter, SlotStore.mem_ids, SlotStore.live, Option.any_eq_true]
  simp only [Bool.not_eq_true']
  refine and_iff_right_of_imp ?_
  rintro ⟨u, hu, -⟩
  rw [hu]
  rfl

/-- **A cycle that has something finalized leaves less to finalize.** -/
theorem Round.unfinalized_lt (h : w.Round due lost w') (hdue : due ≠ []) :
    w'.unfinalized.length < w.unfinalized.length := by
  obtain ⟨id, hid⟩ := List.exists_mem_of_ne_nil due hdue
  have hnodup : (id :: w'.unfinalized).Nodup := by
    refine List.nodup_cons.2 ⟨fun hmem ↦ ?_, (SlotStore.nodup_ids _).filter _⟩
    obtain ⟨u', hu', hflag'⟩ := mem_unfinalized.1 hmem
    obtain ⟨u, -, hflag⟩ := h.flag hu'
    exact (hflag.1 hflag').2 hid
  have hsubset : id :: w'.unfinalized ⊆ w.unfinalized := fun x hx ↦ by
    rcases List.mem_cons.1 hx with rfl | hx
    · obtain ⟨u, hu, hflag, -⟩ := ((h.mem_due x).1 hid).pending
      exact mem_unfinalized.2 ⟨u, hu, hflag⟩
    · obtain ⟨u', hu', hflag'⟩ := mem_unfinalized.1 hx
      obtain ⟨u, hu, hflag⟩ := h.flag hu'
      exact mem_unfinalized.2 ⟨u, hu, (hflag.1 hflag').1⟩
  have hlength := (hnodup.subperm hsubset).length_le
  rwa [List.length_cons] at hlength

/-- **How a full collection leaves a world.** -/
structure Settles (w w' : World) : Prop where
  wanes : w.binding.machine.heap.Wanes w'.binding.machine.heap
  roots : w'.binding.machine.roots = w.binding.machine.roots
  registry : w'.binding.registry = w.binding.registry
  /-- What could not be reached is gone. -/
  lost : ∀ {id}, ¬ w.binding.machine.heap.Rooted w.binding.machine.roots (.userdata id) →
    ¬ w'.Live id
  /-- What can be reached is not. -/
  kept : ∀ {id}, w.Live id →
    w'.binding.machine.heap.Rooted w'.binding.machine.roots (.userdata id) → w'.Live id
  /-- What can be reached other than through keys of tables with weak values stays so. -/
  firm : w.WeakCache → ∀ {r}, w.binding.machine.heap.Firm w.binding.machine.roots r →
    w'.binding.machine.heap.Firm w'.binding.machine.roots r
  /-- What is there can be reached, if not from the roots then through keys that have gone with their
  entries. -/
  reached : ∀ {id}, w'.Live id → w'.ReachesSince w (.userdata id)
  record? : ∀ {id}, w'.Live id → w'.record? id = w.record? id
  /-- What the userdata that are gone owned has been destroyed, each payload once, and nothing else
  has been done to the host. -/
  host : ∃ gone : List Nat, gone.Nodup ∧ (∀ id, id ∈ gone ↔ w.Live id ∧ ¬ w'.Live id) ∧
    w'.host = w.hostWithout (gone.filterMap w.payload?)
  tidy : w.Tidy → w'.Tidy

theorem Round.rooted (h : w.Round due lost w') {r : Ref}
    (hr : w'.binding.machine.heap.Rooted w'.binding.machine.roots r) :
    w.binding.machine.heap.Rooted w.binding.machine.roots r :=
  h.wanes.rooted (fun v hv ↦ by rwa [h.roots] at hv) hr

/-- **A cycle that has nothing finalized settles the world.** -/
theorem Round.settles_of_nil (h : w.Round [] lost w') : w.Settles w' := by
  have hkept {r : Ref} (hr : w.binding.machine.heap.Kept w.binding.machine.roots r) :
      w.binding.machine.heap.Rooted w.binding.machine.roots r := by
    refine hr.mono ?_
    rintro x (hx | ⟨id, -, hdue⟩)
    · exact hx
    · exact absurd ((h.mem_due id).2 hdue) List.not_mem_nil
  refine ⟨h.wanes, h.roots, h.registry, fun hn hlive ↦ hn (hkept ((h.live _).1 hlive).2),
    fun hlive hr ↦ (h.live _).2 ⟨hlive, (h.rooted hr).kept⟩, h.firm,
    fun hlive ↦ h.reached rfl (hkept ((h.live _).1 hlive).2), fun hlive ↦ ?_,
    ⟨lost, h.nodup_lost, fun id ↦ ?_, ?_⟩, h.tidy⟩
  · rw [h.record? hlive, if_neg List.not_mem_nil]
  · rw [h.mem_lost, h.live]
    tauto
  · rw [h.host, List.append_nil]

theorem Settles.live (h : w.Settles w') (hid : w'.Live id) : w.Live id := by
  obtain ⟨u', hu'⟩ := (SlotStore.live_iff _).1 hid
  obtain ⟨u, hu, -⟩ := h.wanes.userdata hu'
  exact (SlotStore.live_iff _).2 ⟨u, hu⟩

/-- What a cycle finds due is still there after it. -/
theorem Round.live_of_mem_due (h : w.Round due lost w') (hid : id ∈ due) : w'.Live id := by
  have hdue := (h.mem_due id).1 hid
  obtain ⟨u, hu, -⟩ := hdue.pending
  exact (h.live id).2 ⟨(SlotStore.live_iff _).2 ⟨u, hu⟩, .root (Or.inr ⟨id, rfl, hdue⟩)⟩

/-- But out of reach, and so gone when the world is settled. -/
theorem Round.not_live_of_mem_due (h : w.Round due lost w₁) (h' : w₁.Settles w') (hid : id ∈ due) :
    ¬ w'.Live id :=
  h'.lost fun hr ↦ ((h.mem_due id).1 hid).unreached (h.rooted hr)

theorem Round.not_live_of_mem_lost (h : w.Round due lost w') (hid : id ∈ lost) : ¬ w'.Live id :=
  fun hlive ↦ ((h.mem_lost id).1 hid).2 ((h.live id).1 hlive).2

section Gone

variable {gone : List Nat}

/-- **All that is gone**: what a cycle has lost, what it has finalized, and what else is gone later. -/
theorem Round.mem_gone (h : w.Round due lost w₁) (h' : w₁.Settles w')
    (hgone : ∀ id, id ∈ gone ↔ w₁.Live id ∧ ¬ w'.Live id) (id : Nat) :
    id ∈ (lost ++ due) ++ gone.filter (· ∉ due) ↔ w.Live id ∧ ¬ w'.Live id := by
  rw [List.mem_append, List.mem_append, List.mem_filter, decide_eq_true_iff, hgone, h.mem_lost]
  constructor
  · rintro ((⟨hl, hn⟩ | hmem) | ⟨⟨hl, hn⟩, -⟩)
    · exact ⟨hl, fun hl' ↦ hn ((h.live id).1 (h'.live hl')).2⟩
    · exact ⟨((h.live id).1 (h.live_of_mem_due hmem)).1, h.not_live_of_mem_due h' hmem⟩
    · exact ⟨((h.live id).1 hl).1, hn⟩
  · rintro ⟨hl, hn⟩
    by_cases hmem : id ∈ due
    · exact Or.inl (Or.inr hmem)
    · by_cases hkept : w.binding.machine.heap.Kept w.binding.machine.roots (.userdata id)
      · exact Or.inr ⟨⟨(h.live id).2 ⟨hl, hkept⟩, hn⟩, hmem⟩
      · exact Or.inl (Or.inl ⟨hl, hkept⟩)

theorem Round.nodup_gone (h : w.Round due lost w₁) (hnodup : gone.Nodup)
    (hlive : ∀ {id}, id ∈ gone → w₁.Live id) :
    ((lost ++ due) ++ gone.filter (· ∉ due)).Nodup := by
  refine List.nodup_append.2 ⟨List.nodup_append.2 ⟨h.nodup_lost, h.nodup_due, ?_⟩,
    hnodup.filter _, ?_⟩
  · rintro x hx _ hy rfl
    exact h.not_live_of_mem_lost hx (h.live_of_mem_due hy)
  · rintro x hx _ hy rfl
    obtain ⟨hmem, hn⟩ := List.mem_filter.1 hy
    rcases List.mem_append.1 hx with hx | hx
    · exact h.not_live_of_mem_lost hx (hlive hmem)
    · exact absurd hx (of_decide_eq_true hn)

/-- **No payload is destroyed twice**: what has been finalized owns nothing any more. -/
theorem Round.hostWithout_gone (h : w.Round due lost w₁) (hlive : ∀ {id}, id ∈ gone → w₁.Live id) :
    w₁.hostWithout (gone.filterMap w₁.payload?) =
      w.hostWithout (((lost ++ due) ++ gone.filter (· ∉ due)).filterMap w.payload?) := by
  have hpayload : gone.filterMap w₁.payload? = (gone.filter (· ∉ due)).filterMap w.payload? := by
    rw [List.filterMap_filter]
    refine List.filterMap_congr fun id hid ↦ ?_
    rw [payload?, h.record? (hlive hid)]
    by_cases hmem : id ∈ due
    · cases hr : w.record? id <;> simp [hmem, Record.retired]
    · simp [hmem, payload?]
  rw [hostWithout, h.host, hpayload, hostWithout, hostWithout, ← List.foldl_append,
    ← List.filterMap_append]

end Gone

/-- **A cycle, and then those that settle the world.** -/
theorem Round.settles (h : w.Round due lost w₁) (h' : w₁.Settles w') : w.Settles w' where
  wanes := h.wanes.trans h'.wanes
  roots := h'.roots.trans h.roots
  registry := h'.registry.trans h.registry
  lost hn := h'.lost fun hr ↦ hn (h.rooted hr)
  kept hid hr := by
    have hr₁ := h'.wanes.rooted (fun v hv ↦ by rwa [h'.roots] at hv) hr
    exact h'.kept ((h.live _).2 ⟨hid, (h.rooted hr₁).kept⟩) hr
  firm hweak _ hr := h'.firm (h.weakCache hweak) (h.firm hweak hr)
  reached hid := (h'.reached hid).mono fun r hr ↦ hr.imp_right h.wanes.shed
  record? {id} hid := by
    rw [h'.record? hid, h.record? (h'.live hid), if_neg fun hmem ↦ h.not_live_of_mem_due h' hmem hid]
  host := by
    obtain ⟨gone, hnodup, hgone, hhost⟩ := h'.host
    have hlive {id : Nat} (hid : id ∈ gone) : w₁.Live id := ((hgone id).1 hid).1
    exact ⟨_, h.nodup_gone hnodup hlive, h.mem_gone h' hgone,
      hhost.trans (h.hostWithout_gone hlive)⟩
  tidy htidy := h'.tidy (h.tidy htidy)

end World

namespace Exec

variable {w : World}

/-- A full collection ends, where there are no references of pins to release. -/
theorem ends_collectAll_drained (hw : w.Kempt) (hd : w.Drained) (fuel : Nat) {rounds : Nat}
    (hrounds : w.unfinalized.length < rounds) :
    Ends (collectAll (runner fuel) rounds) (fun _ w' ↦ w.Settles w') (fun _ _ ↦ False) w := by
  induction rounds generalizing w with
  | zero => exact absurd hrounds (Nat.not_lt_zero _)
  | succ rounds ih =>
    rw [collectAll, ends_bind]
    refine (ends_collect_round hw hd fuel).imp (fun n w₁ h ↦ ?_) fun _ _ h ↦ h
    obtain ⟨due, lost, rfl, h⟩ := h
    by_cases hdue : due = []
    · subst hdue
      exact h.settles_of_nil
    · rw [if_neg fun hlength ↦ hdue (List.length_eq_zero_iff.1 hlength)]
      have hlt := h.unfinalized_lt hdue
      simp only [ends_bind]
      refine (ih h.kempt h.drained (by omega)).imp (fun _ w' h' ↦ h.settles h') fun _ _ h ↦ h

/-- A cycle begins with the release of the references of pins. -/
theorem ends_collect_flushed (run : Runner) {Q : Nat → World → Prop} {E : Interrupt → World → Prop} :
    Ends (collect run) Q E (flushed w) ↔ Ends (collect run) Q E w := by
  simp only [collect, sweep, ends_bind, ends_flushPins, w.drained_flushed.flushed]

/-- **A full collection ends**: after as many cycles as there are userdata to finalize, and one more,
the world has settled, the references of pins being released first. -/
theorem ends_collectAll (hw : w.Kempt) (fuel : Nat) {rounds : Nat}
    (hrounds : w.unfinalized.length < rounds) :
    Ends (collectAll (runner fuel) rounds) (fun _ w' ↦ (flushed w).Settles w') (fun _ _ ↦ False)
      w := by
  have hflushed := w.retires_flushed
  have hunfinalized : (flushed w).unfinalized = w.unfinalized := by
    obtain ⟨tables, hmachine, -⟩ := machine_flushed w
    rw [World.unfinalized, hmachine]
    rfl
  rw [← hunfinalized] at hrounds
  have hdrained := ends_collectAll_drained (hflushed.kempt hw) w.drained_flushed fuel hrounds
  cases rounds with
  | zero => exact absurd hrounds (Nat.not_lt_zero _)
  | succ rounds =>
    rw [collectAll, ends_bind] at hdrained ⊢
    exact (ends_collect_flushed _).1 hdrained

end Exec

end ObjectBridge
