import ObjectBridge.Proofs.Finality
import ObjectBridge.Proofs.MapWalks

/-!
# Walks over maps that change

A walk over a map has taken the keys down when it began. While it goes on, scripts may write, erase
and insert, and the collector may run. What the steps then give is the `itinerary` of the walk: each
step gives the first key not yet passed that the map has at that moment, with the value it has then.

`World.Strolling` is what a walk relies on: its cursor, which has some keys to come, the record of the
userdata that gives the map to scripts, and the map. A step takes the cursor on (`Exec.ends_next`);
operations on the map, cycles of the collector and finalizers of other userdata leave the walk where
it is (`Strolling.operate`, `Strolling.sweep`, `Strolling.collect`, `Strolling.runFinalizer`). The cursor
keeps the userdata of the map alive, so no cycle that reaches the cursor loses it or finds it due
(`Strolling.rooted_owner`, `Exec.ends_sweep_rooted`).

`Stroll` is any interleaving of these, and `MapCursor.follows_snapshot` says what its steps give.
-/

namespace ObjectBridge

/-! ### What the steps of a walk give -/

namespace Dict

/-- Some keys, from the first one on that the map has. -/
def ahead (d : Dict Datum Datum) (keys : List Datum) : List Datum :=
  keys.dropWhile fun k ↦ !d.contains k

/-- The first of some keys that the map has, with its value. -/
def first? (d : Dict Datum Datum) (keys : List Datum) : Option (Datum × Datum) :=
  (d.ahead keys).head?.bind fun k ↦ (d.find? k).map (k, ·)

variable {d : Dict Datum Datum} {k x : Datum} {keys rest : List Datum}

theorem ahead_cons_of_some (hx : d.find? k = some x) : d.ahead (k :: keys) = k :: keys := by
  rw [ahead, List.dropWhile_cons_of_neg]
  simp [contains, hx]

theorem ahead_cons_of_none (hx : d.find? k = none) : d.ahead (k :: keys) = d.ahead keys := by
  rw [ahead, List.dropWhile_cons_of_pos, ahead]
  simp [contains, hx]

theorem ahead_sublist (d : Dict Datum Datum) (keys : List Datum) : (d.ahead keys).Sublist keys :=
  List.dropWhile_sublist _

/-- The map has the first key ahead. -/
theorem exists_of_ahead (h : d.ahead keys = k :: rest) : ∃ x, d.first? keys = some (k, x) := by
  have hcontains : d.contains k = true := by
    have hhead := List.head?_dropWhile_not (fun k ↦ !d.contains k) keys
    rw [← ahead, h] at hhead
    simpa using hhead
  obtain ⟨x, hx⟩ := Option.isSome_iff_exists.1 hcontains
  exact ⟨x, by rw [first?, h, List.head?_cons, Option.bind_some, hx, Option.map_some]⟩

theorem find?_of_first? (h : d.first? keys = some (k, x)) : d.find? k = some x := by
  obtain ⟨k', -, hk'⟩ := Option.bind_eq_some_iff.1 h
  obtain ⟨x', hx', heq⟩ := Option.map_eq_some_iff.1 hk'
  obtain ⟨rfl, rfl⟩ := Prod.mk.inj heq
  exact hx'

end Dict

/-- What the steps of a walk give that has some keys to come, each step finding the next of some
maps. -/
def itinerary : List Datum → List (Dict Datum Datum) → List (Option (Datum × Datum))
  | _, [] => []
  | keys, d :: ds => d.first? keys :: itinerary (d.ahead keys).tail ds

/-- A walk without keys to come gives nothing any more. -/
theorem itinerary_nil (ds : List (Dict Datum Datum)) :
    itinerary [] ds = List.replicate ds.length none := by
  induction ds with
  | nil => rfl
  | cons d ds ih =>
    rw [itinerary, List.length_cons, List.replicate_succ]
    exact congrArg (none :: ·) ih

/-- **A walk gives some of its keys, in their order, and then nothing any more.** -/
theorem exists_itinerary (keys : List Datum) (ds : List (Dict Datum Datum)) :
    ∃ (visits : List (Datum × Datum)) (n : Nat),
      itinerary keys ds = visits.map some ++ List.replicate n none ∧
        (visits.map Prod.fst).Sublist keys := by
  induction ds generalizing keys with
  | nil => exact ⟨[], 0, rfl, List.nil_sublist _⟩
  | cons d ds ih =>
    rw [itinerary]
    cases h : d.ahead keys with
    | nil =>
      refine ⟨[], ds.length + 1, ?_, List.nil_sublist _⟩
      rw [Dict.first?, h, List.tail_nil, itinerary_nil]
      rfl
    | cons k rest =>
      obtain ⟨x, hx⟩ := Dict.exists_of_ahead h
      obtain ⟨visits, n, heq, hsub⟩ := ih rest
      refine ⟨(k, x) :: visits, n, by rw [hx, List.tail_cons, heq]; rfl, ?_⟩
      exact (h ▸ hsub.cons_cons k).trans (d.ahead_sublist keys)

/-- A step looks for a binding as an itinerary does. -/
theorem Exec.nextBinding_spec {keys : List Datum} (d : Dict Datum Datum) {l : List Datum}
    {position : Nat} (h : keys.drop position = l) :
    (nextBinding d l position).1 = d.first? l ∧
      keys.drop (nextBinding d l position).2 = (d.ahead l).tail := by
  induction l generalizing position with
  | nil => exact ⟨rfl, h⟩
  | cons k rest ih =>
    have hrest : keys.drop (position + 1) = rest := by
      rw [← List.drop_drop, h, List.drop_one, List.tail_cons]
    rw [nextBinding]
    cases hx : d.find? k with
    | some x =>
      rw [Dict.first?, Dict.ahead_cons_of_some hx]
      exact ⟨by rw [List.head?_cons, Option.bind_some, hx, Option.map_some], hrest⟩
    | none =>
      rw [Dict.first?, Dict.ahead_cons_of_none hx]
      exact ih hrest

/-! ### What a cycle leaves -/

/-- **A cycle leaves a userdata that the roots reach as it is**, complete or not, and does not find it
due. -/
theorem Heap.get?_of_collect_rooted {h : Heap} {roots : List Value} {id : Nat}
    (hr : h.Rooted roots (.userdata id)) :
    (∀ c, h.collect roots = .ok c → c.heap.userdata.get? id = h.userdata.get? id ∧ id ∉ c.due) ∧
      ∀ i, h.collect roots = .error i → i.heap.userdata.get? id = h.userdata.get? id := by
  constructor
  · intro c hc
    have hcollects := collects_of_collect hc
    have hnot : ¬ h.Due roots id := fun hdue ↦ hdue.unreached hr
    exact ⟨hcollects.userdata id hr.kept hnot, fun hid ↦ hnot ((hcollects.mem_due_iff id).1 hid)⟩
  · intro i hi
    rw [collect] at hi
    cases hroots : h.trace (Marks.clear h) (roots.filterMap Value.ref?) with
    | error s =>
      simp only [hroots, Except.error.injEq] at hi
      rw [← hi]
    | ok m =>
      obtain ⟨hm, -⟩ := trace_roots hroots
      have hdue : id ∉ h.dueFinalizers m := fun hid ↦
        ((mem_dueFinalizers hm id).1 hid).unreached hr
      simp only [hroots] at hi
      split at hi
      · rw [← Except.error.inj hi, clearWeak]
      · split at hi
        · rw [← Except.error.inj hi]
          exact (get?_flagFinalized _ _ _).trans (if_neg hdue)
        · exact absurd hi (by simp)

/-- An anchor that gives its slot back is no container, before or after. -/
theorem Host.container?_detach (h : Host) (cell a : Address) :
    (h.detach cell).memory.container? a = h.memory.container? a := by
  have hwrite : ∀ {x : Anchor}, h.memory.anchor cell = x → x.slot ≠ none →
      (h.memory.write cell (.anchor {})).container? a = h.memory.container? a := by
    intro x hx hslot
    rw [Memory.container?, Memory.write, Memory.container?]
    by_cases ha : a = cell
    · subst ha
      rw [Dict.find?_insert_self]
      cases hcell : h.memory.cells.find? a with
      | none => rfl
      | some y =>
        cases y with
        | container _ =>
          rw [Memory.anchor, hcell] at hx
          exact absurd (hx ▸ rfl) hslot
        | _ => rfl
    · rw [Dict.find?_insert_of_ne _ _ ha]
  rw [detach]
  split
  · rfl
  · rename_i slot owner hanchor
    have hkept := hwrite hanchor (by simp)
    cases owner with
    | none => exact hkept
    | some domain =>
      simp only
      split <;> exact hkept

/-- Destroying objects leaves the containers alone. -/
theorem Host.lasting_containers :
    Lasting fun h h' ↦ ∀ a, h'.memory.container? a = h.memory.container? a where
  refl _ _ := rfl
  trans h h' a := (h' a).trans (h a)
  detach h cell := h.container?_detach cell
  note _ _ _ := rfl
  disown _ _ _ := rfl

theorem World.userdata_flushed (w : World) :
    (Exec.flushed w).binding.machine.heap.userdata = w.binding.machine.heap.userdata := by
  obtain ⟨tables, hmachine, -⟩ := Exec.machine_flushed w
  rw [hmachine]

/-- **A cycle of the collector** leaves the userdata that the roots reach as they are and does not find
them due, and it leaves the containers of the host alone. -/
theorem Exec.ends_sweep_rooted {w : World} :
    Ends sweep
      (fun due w' ↦ (∀ id ∉ (flushed w).unreached, id ∉ due ∧
          w'.binding.machine.heap.userdata.get? id = w.binding.machine.heap.userdata.get? id) ∧
        ∀ a, w'.host.memory.container? a = w.host.memory.container? a)
      (fun _ w' ↦ (∀ id ∉ (flushed w).unreached,
          w'.binding.machine.heap.userdata.get? id = w.binding.machine.heap.userdata.get? id) ∧
        ∀ a, w'.host.memory.container? a = w.host.memory.container? a) w := by
  rw [← w.userdata_flushed]
  simp only [sweep, ends_bind, ends_flushPins, ends_machine]
  split
  · rename_i i hi
    simp only [ends_bind, ends_modifyMachine, ends_panic]
    exact ⟨fun id hid ↦ (Heap.get?_of_collect_rooted (not_not.1 hid)).2 i hi, fun _ ↦ rfl⟩
  · rename_i c hc
    simp only [ends_bind, ends_modifyMachine, ends_modifyHost, ends_pure]
    refine ⟨fun id hid ↦ ?_, Host.lasting_containers.dropAll w.host c.removed⟩
    exact ((Heap.get?_of_collect_rooted (not_not.1 hid)).1 c hc).symm

/-- Where finalizers are those of the bridge, a cycle meets no stray reference, and its finalizers can be
run. -/
theorem Exec.ends_sweep_kempt {w : World} (hw : w.Kempt) :
    Ends sweep (fun _ w' ↦ w'.Kempt ∧ w'.Drained) (fun _ _ ↦ False) w := by
  have hflushed := w.retires_flushed.kempt hw
  obtain ⟨c, hc⟩ := hflushed.numbered.collect_ok
  have hkempt := World.kempt_swept hflushed w.drained_flushed hc
  rw [World.swept, w.drained_flushed.flushed] at hkempt
  simp only [sweep, ends_bind, ends_flushPins, ends_machine, hc, ends_modifyMachine, ends_modifyHost,
    ends_pure]
  exact ⟨hkempt, w.drained_flushed⟩

/-! ### What a walk relies on -/

/-- What a walk over a map that may change relies on: a cursor that has some keys to come, the record
of the userdata `owner` that gives the map to scripts, and a map at its address. -/
structure World.Strolling (w : World) (key : ScalarType) (a : Address) (owner cursor : Nat)
    (r : Record) (keys : List Datum) : Prop where
  cursor : ∃ u c, w.binding.machine.heap.userdata.get? cursor = some u ∧ u.content = .cursor c ∧
    c.keyType = key ∧ c.keys.drop c.position = keys ∧ u.userValue = .userdata owner
  owner : w.record? owner = some r
  maps : ∃ d, w.Maps a d

/-- A change that leaves a walk alone: cursor and owner are as they were, and at the address of the map
is a map, whatever has become of its bindings. -/
structure World.Spares (w : World) (a : Address) (owner cursor : Nat) (w' : World) : Prop where
  cursor : (w'.binding.machine.heap.userdata.get? cursor).map (fun u ↦ (u.content, u.userValue)) =
    (w.binding.machine.heap.userdata.get? cursor).map fun u ↦ (u.content, u.userValue)
  owner : w'.record? owner = w.record? owner
  maps : ∃ d, w'.Maps a d

namespace World

variable {w w' : World} {shape : MapShape} {key value : ScalarType} {a : Address} {owner cursor : Nat}
  {r : Record} {keys : List Datum} {d : Dict Datum Datum}

theorem Strolling.spared (hw : w.Strolling key a owner cursor r keys)
    (h : w.Spares a owner cursor w') : w'.Strolling key a owner cursor r keys where
  cursor := by
    obtain ⟨u, c, hu, hc, hkey, hkeys, huser⟩ := hw.cursor
    have hcursor := h.cursor
    rw [hu] at hcursor
    obtain ⟨u', hu', heq⟩ := Option.map_eq_some_iff.1 hcursor
    obtain ⟨hcontent, huser'⟩ := Prod.mk.inj heq
    exact ⟨u', c, hu', hcontent.trans hc, hkey, hkeys, huser'.trans huser⟩
  owner := h.owner.trans hw.owner
  maps := h.maps

/-- Userdata that are as they were are no less a cursor and an owner. -/
theorem spares_of_get? (hcursor : w'.binding.machine.heap.userdata.get? cursor =
      w.binding.machine.heap.userdata.get? cursor)
    (howner : w'.binding.machine.heap.userdata.get? owner =
      w.binding.machine.heap.userdata.get? owner) (hmaps : ∃ d, w'.Maps a d) :
    w.Spares a owner cursor w' where
  cursor := by rw [hcursor]
  owner := congrArg (Option.bind · Userdata.record?) howner
  maps := hmaps

/-- What nothing but the stack, the frames and the released pins tells apart. -/
theorem Restacked.spares (h : (Exec.flushed w).Restacked w') (hmaps : ∃ d, w.Maps a d) :
    w.Spares a owner cursor w' := by
  obtain ⟨stack, frames, rfl⟩ := h
  have huserdata := w.userdata_flushed
  exact spares_of_get? (congrArg (SlotStore.get? · cursor) huserdata)
    (congrArg (SlotStore.get? · owner) huserdata) hmaps

/-- **The finalizer of the bridge leaves a walk alone**, if it is not that of the owner. -/
theorem Strolling.finalized (hw : w.Strolling key a owner cursor r keys) {id : Nat} (hid : id ≠ owner) :
    (w.finalized id).Strolling key a owner cursor r keys := by
  cases hr : w.record? id with
  | none => rwa [finalized_of_none hr]
  | some r' =>
    obtain ⟨u, c, hu, hc, hkey, hkeys, huser⟩ := hw.cursor
    let m := w.binding.machine.modifyRecord id fun r ↦ { r.discard with payload := none }
    have huserdata : (w.finalized id).binding.machine.heap.userdata = m.heap.userdata := by
      rw [World.finalized, hr]
      simp only [finalizing]
      split <;> rfl
    have hcursor : m.heap.userdata.get? cursor = some u := by
      show (w.binding.machine.heap.userdata.modify id _).get? cursor = some u
      rw [SlotStore.get?_modify, hu]
      split
      · simp only [Option.map_some, hc]
      · rfl
    have howner : m.record? owner = some r := by
      rw [Machine.record?_modifyRecord, if_neg (Ne.symm hid)]
      exact hw.owner
    refine ⟨⟨u, c, huserdata ▸ hcursor, hc, hkey, hkeys, huser⟩, ?_, ?_⟩
    · show ((w.finalized id).binding.machine.heap.userdata.get? owner).bind _ = some r
      rw [huserdata]
      exact howner
    · obtain ⟨d, hd⟩ := hw.maps
      refine ⟨d, ?_⟩
      have hhost : (w.finalized id).host = w.hostWithout r'.payload.toList := by
        rw [World.finalized, hr]
      rw [Maps, hhost, hostWithout]
      cases r'.payload with
      | none => exact hd
      | some p => exact (Host.lasting_containers.dropPayload w.host p a).trans hd

theorem Strolling.runFinalizer (hw : w.Strolling key a owner cursor r keys) {id : Nat}
    (hid : id ≠ owner) (hframed : w.Framed)
    (hbridge : w.finalizer id ≠ .nil →
      w.binding.machine.callable? (w.finalizer id) = some (.builtin .finalize)) (fuel : Nat) :
    ((Exec.runFinalizer (Exec.runner fuel) id).outcome w).2.Strolling key a owner cursor r keys := by
  refine Exec.Ends.world (P := fun w' ↦ w'.Strolling key a owner cursor r keys)
    ((Exec.ends_runFinalizer_or_refused hframed hbridge fuel).imp (fun _ w' h ↦ ?_) fun _ _ h ↦ h.elim)
  rcases h with rfl | h | h
  · exact hw
  · exact hw.spared (h.spares hw.maps)
  · have hflushed : (Exec.flushed w).Strolling key a owner cursor r keys :=
      hw.spared (Restacked.refl _ |>.spares hw.maps)
    obtain ⟨stack, frames, rfl⟩ := h
    have hfinalized := hflushed.finalized hid
    exact ⟨hfinalized.cursor, hfinalized.owner, hfinalized.maps⟩

/-- The cursor of a walk keeps the userdata of the map alive. -/
theorem Strolling.rooted_owner (hw : w.Strolling key a owner cursor r keys)
    (h : cursor ∉ (Exec.flushed w).unreached) : owner ∉ (Exec.flushed w).unreached := by
  obtain ⟨u, c, hu, -, -, -, huser⟩ := hw.cursor
  refine not_not.2 (.link (not_not.1 h) ?_)
  rw [← w.userdata_flushed] at hu
  simp only [Heap.links, hu, Userdata.links, huser, List.mem_append]
  exact Or.inr (by simp [Value.ref?])

/-- **A cycle of the collector that reaches the cursor** leaves a walk alone, complete or not, and does
not find the owner due. -/
theorem Strolling.sweep (hw : w.Strolling key a owner cursor r keys)
    (h : cursor ∉ (Exec.flushed w).unreached) :
    (Exec.sweep.outcome w).2.Strolling key a owner cursor r keys ∧
      ∀ due w', Exec.sweep.outcome w = (.ok due, w') → owner ∉ due ∧ cursor ∉ due := by
  have howner := hw.rooted_owner h
  obtain ⟨d, hd⟩ := hw.maps
  refine ⟨hw.spared (Exec.Ends.world (P := w.Spares a owner cursor)
    (Exec.ends_sweep_rooted.imp (fun due w' h' ↦ ?_) fun _ w' h' ↦ ?_)), fun due w' hout ↦ ?_⟩
  · exact spares_of_get? (h'.1 _ h).2 (h'.1 _ howner).2 ⟨d, (h'.2 a).trans hd⟩
  · exact spares_of_get? (h'.1 _ h) (h'.1 _ howner) ⟨d, (h'.2 a).trans hd⟩
  · obtain ⟨hdue, -⟩ := Exec.ends_sweep_rooted.ok hout
    exact ⟨(hdue _ howner).1, (hdue _ h).1⟩

/-- The finalizers of the bridge leave a walk alone that is not over the map of one of them. -/
theorem Strolling.ends_finalizers {ids : List Nat} (hw : w.Strolling key a owner cursor r keys)
    (hkempt : w.Kempt) (hdrained : w.Drained) (hids : owner ∉ ids) (fuel : Nat) :
    Exec.Ends (ids.forM (Exec.runFinalizer (Exec.runner fuel)))
      (fun _ w' ↦ w'.Strolling key a owner cursor r keys) (fun _ _ ↦ False) w := by
  induction ids generalizing w with
  | nil => exact hw
  | cons id ids ih =>
    obtain ⟨hid, hids⟩ := not_or.1 (mt List.mem_cons.2 hids)
    rw [List.forM, Exec.ends_bind]
    refine (Exec.ends_runFinalizer_bridge hkempt.framed hdrained.flushed (hkempt.furnished.tame id)
      hkempt.depth_lt fuel).imp (fun _ w₁ h ↦ ?_) fun _ _ h ↦ h
    have hretires : w.Retires [id] w₁ := h ▸ w.retires_finalized id
    exact ih (h ▸ hw.finalized (Ne.symm hid)) (hretires.kempt hkempt) (hretires.drained hdrained) hids

/-- **A cycle of the collector and the finalizers that are due** leave a walk alone, if the cycle reaches
the cursor and finalizers are those of the bridge. -/
theorem Strolling.collect (hw : w.Strolling key a owner cursor r keys) (hkempt : w.Kempt)
    (h : cursor ∉ (Exec.flushed w).unreached) (fuel : Nat) :
    Exec.Ends (Exec.collect (Exec.runner fuel))
      (fun _ w' ↦ w'.Strolling key a owner cursor r keys) (fun _ _ ↦ False) w := by
  obtain ⟨hswept, hdue⟩ := hw.sweep h
  obtain ⟨due, w₁, hout, hkempt₁, hdrained⟩ := (Exec.ends_sweep_kempt hkempt).exists_ok
  rw [hout] at hswept
  have hfinalizers := hswept.ends_finalizers hkempt₁ hdrained (hdue due w₁ hout).1 fuel
  rw [Exec.collect, Exec.ends_bind, Exec.Ends, hout]
  simp only [Exec.ends_bind]
  exact hfinalizers.imp (fun _ _ hw' ↦ hw') fun _ _ hfalse ↦ hfalse

end World

theorem Machine.userdata_pushPlain (m : Machine) (p : Plain) :
    (m.pushPlain p).heap.userdata = m.heap.userdata := by
  cases p <;> rfl

theorem Machine.userdata_foldl_pushPlain (m : Machine) (ps : List Plain) :
    (ps.foldl pushPlain m).heap.userdata = m.heap.userdata := by
  induction ps generalizing m with
  | nil => rfl
  | cons p ps ih => rw [List.foldl_cons, ih, userdata_pushPlain]

namespace World

variable {w w' : World} {shape : MapShape} {key value : ScalarType} {a : Address} {owner cursor : Nat}
  {r : Record} {keys : List Datum} {d : Dict Datum Datum}

/-- **Operations on the map of a walk** leave the walk alone, whether they answer or fail. -/
theorem Strolling.operate (hw : w.Strolling key a owner cursor r keys) (op : MapOp)
    (hc : w.container? (w.binding.machine.valueAt 1) = some (.map shape key value, a)) :
    (op.builtin.run.outcome w).2.Strolling key a owner cursor r keys := by
  obtain ⟨d, hd⟩ := hw.maps
  refine hw.spared (Exec.Ends.world (P := w.Spares a owner cursor)
    (Exec.Ends.imp (Exec.obeysMap_builtin hc hd op) (fun _ w' h ↦ ?_) fun _ w' h ↦ ?_))
  · obtain ⟨ps, m, -, -, hanswered⟩ := h
    obtain ⟨d', hd', -⟩ := hanswered.maps
    have huserdata : w'.binding.machine.heap.userdata = w.binding.machine.heap.userdata := by
      rw [hanswered.machine, Machine.userdata_foldl_pushPlain]
    exact spares_of_get? (by rw [huserdata]) (by rw [huserdata]) ⟨d', hd'⟩
  · obtain ⟨f, -, -, hrefused⟩ := h
    refine spares_of_get? (by rw [hrefused.userdata]) (by rw [hrefused.userdata]) ⟨d, ?_⟩
    rw [Maps, hrefused.host]
    exact hd

/-- What a step of a walk pushes that finds a binding, or none. -/
def Gives (w : World) (key value : ScalarType) (cursor : Nat) :
    Option (Datum × Datum) → Nat → World → Prop
  | some (k, x), n, w' => n = 2 ∧ ∃ p q c position, key.write k = .ok p ∧ value.write x = .ok q ∧
      w'.binding.machine =
        ((w.binding.machine.advance cursor c position).pushPlain p).pushPlain q
  | none, n, w' => n = 1 ∧ ∃ c position,
      w'.binding.machine = (w.binding.machine.advance cursor c position).push .nil

/-- A cursor that has come to a position has the keys from there on to come. -/
theorem Strolling.advanced (hw : w.Strolling key a owner cursor r keys) {u : Userdata} {c : Cursor}
    (hu : w.binding.machine.heap.userdata.get? cursor = some u) (hc : u.content = .cursor c)
    {position : Nat} (hhost : w'.host = w.host)
    (huserdata : w'.binding.machine.heap.userdata =
      (w.binding.machine.advance cursor c position).heap.userdata) :
    w'.Strolling key a owner cursor r (c.keys.drop position) where
  cursor := by
    obtain ⟨u', c', hu', hc', hkey, -, huser⟩ := hw.cursor
    obtain rfl : u = u' := Option.some.inj (hu.symm.trans hu')
    obtain rfl : c = c' := Content.cursor.inj (hc.symm.trans hc')
    refine ⟨{ u with content := .cursor { c with position := position } },
      { c with position := position }, ?_, rfl, hkey, rfl, huser⟩
    rw [huserdata, Machine.advance, Heap.modifyUserdata, SlotStore.get?_modify, if_pos rfl, hu]
    rfl
  owner := by
    rw [← hw.owner, ← show (w.binding.machine.advance cursor c position).record? owner = w.record? owner
      from Machine.record?_advance position hu hc owner]
    show (w'.binding.machine.heap.userdata.get? owner).bind _ = _
    rw [huserdata]
    rfl
  maps := by
    obtain ⟨d, hd⟩ := hw.maps
    exact ⟨d, by rw [Maps, hhost]; exact hd⟩

end World

/-- **A step of a walk** gives the first binding that the map has of the keys to come, and passes what
it has skipped. -/
theorem Exec.ends_next {w : World} {shape : MapShape} {key value : ScalarType} {a : Address}
    {owner cursor : Nat} {r : Record} {keys : List Datum} {d : Dict Datum Datum}
    (hw : w.Strolling key a owner cursor r keys) (hexposed : r.exposed = .container (.map shape key value))
    (htarget : r.target = .pointer a) (harg : w.binding.machine.valueAt 1 = .userdata cursor)
    (hd : w.Maps a d) (hshown : d.Shown key value) :
    Ends (Builtin.advance (.map shape key value)).run
      (fun n w' ↦ w.Gives key value cursor (d.first? keys) n w' ∧
        w'.Strolling key a owner cursor r (d.ahead keys).tail) (fun _ _ ↦ False) w := by
  obtain ⟨u, c, hu, hc, hkey, hkeys, huser⟩ := hw.cursor
  have hcontainer : w.container? u.userValue = some (.map shape key value, a) := by
    have howner : w.binding.machine.record? owner = some r := hw.owner
    rw [huser, World.container?]
    simp only [Value.userdata?, Option.bind_some, howner, hexposed, htarget]
  obtain ⟨hfound, hposition⟩ := nextBinding_spec d hkeys
  rw [Builtin.run, containerNext, ends_mapNext harg hu hc hkey hcontainer hd, hkeys, hfound,
    ← hposition]
  generalize (nextBinding d keys c.position).2 = position
  cases hfirst : d.first? keys with
  | none =>
    exact ⟨⟨rfl, c, position, rfl⟩, hw.advanced hu hc rfl rfl⟩
  | some binding =>
    obtain ⟨k, x⟩ := binding
    obtain ⟨⟨p, hp⟩, q, hq⟩ := hshown k x (Dict.find?_of_first? hfirst)
    dsimp only
    rw [ends_bind]
    refine ends_written k (fun p' hp' ↦ ?_) fun n hn ↦ by rw [hp] at hn; cases hn
    rw [ends_bind]
    refine ends_written x (fun q' hq' ↦ ?_) fun n hn ↦ by rw [hq] at hn; cases hn
    rw [ends_pure]
    refine ⟨⟨rfl, p', q', c, position, hp', hq', rfl⟩, hw.advanced hu hc rfl ?_⟩
    exact (Machine.userdata_pushPlain _ q').trans (Machine.userdata_pushPlain _ p')

/-! ### Interleavings -/

/-- A call of the step function of a walk: the world in which the function starts, and the map then. -/
structure CursorCall where
  world : World
  map : Dict Datum Datum

/-- What a call comes to. -/
def CursorCall.outcome (c : CursorCall) (kind : ContainerKind) : Except Interrupt Nat × World :=
  (Builtin.advance kind).run.outcome c.world

/-- A call gives a binding, or none. -/
def CursorCall.Answers (shape : MapShape) (key value : ScalarType) (cursor : Nat) (c : CursorCall)
    (answer : Option (Datum × Datum)) : Prop :=
  ∃ n, (c.outcome (.map shape key value)).1 = .ok n ∧
    c.world.Gives key value cursor answer n (c.outcome (.map shape key value)).2

/-- **A walk during which other things happen**: the calls of its step function, in any order with
operations on the map, cycles of the collector that reach the cursor, with the finalizers that are due or
without, finalizers of other userdata, and whatever else leaves the walk alone. All keys and values of the
map have script values when the step function is called. -/
inductive Stroll (shape : MapShape) (key value : ScalarType) (a : Address) (owner cursor : Nat) :
    World → List CursorCall → World → Prop
  | done {w : World} : Stroll shape key value a owner cursor w [] w
  | next {w w' : World} {d : Dict Datum Datum} {cs : List CursorCall}
      (argument : w.binding.machine.valueAt 1 = .userdata cursor) (maps : w.Maps a d)
      (shown : d.Shown key value)
      (rest : Stroll shape key value a owner cursor
        ((Builtin.advance (.map shape key value)).run.outcome w).2 cs w') :
      Stroll shape key value a owner cursor w (⟨w, d⟩ :: cs) w'
  | operate {w w' : World} {cs : List CursorCall} (op : MapOp)
      (container : w.container? (w.binding.machine.valueAt 1) = some (.map shape key value, a))
      (rest : Stroll shape key value a owner cursor (op.builtin.run.outcome w).2 cs w') :
      Stroll shape key value a owner cursor w cs w'
  | sweep {w w' : World} {cs : List CursorCall} (reached : cursor ∉ (Exec.flushed w).unreached)
      (rest : Stroll shape key value a owner cursor (Exec.sweep.outcome w).2 cs w') :
      Stroll shape key value a owner cursor w cs w'
  | collect {w w' : World} {cs : List CursorCall} {fuel : Nat} (kempt : w.Kempt)
      (reached : cursor ∉ (Exec.flushed w).unreached)
      (rest : Stroll shape key value a owner cursor
        ((Exec.collect (Exec.runner fuel)).outcome w).2 cs w') :
      Stroll shape key value a owner cursor w cs w'
  | runFinalizer {w w' : World} {cs : List CursorCall} {fuel id : Nat} (other : id ≠ owner)
      (framed : w.Framed)
      (bridge : w.finalizer id ≠ .nil →
        w.binding.machine.callable? (w.finalizer id) = some (.builtin .finalize))
      (rest : Stroll shape key value a owner cursor
        ((Exec.runFinalizer (Exec.runner fuel) id).outcome w).2 cs w') :
      Stroll shape key value a owner cursor w cs w'
  | pass {w w₁ w' : World} {cs : List CursorCall} (spares : w.Spares a owner cursor w₁)
      (rest : Stroll shape key value a owner cursor w₁ cs w') :
      Stroll shape key value a owner cursor w cs w'

section

variable {shape : MapShape} {key value : ScalarType} {a : Address} {owner cursor : Nat} {r : Record}
  {w w' : World} {cs : List CursorCall} {keys : List Datum} {d : Dict Datum Datum}

/-- The calls of a walk answer as its itinerary says, and the walk can go on. -/
theorem Stroll.follows (h : Stroll shape key value a owner cursor w cs w')
    (hexposed : r.exposed = .container (.map shape key value)) (htarget : r.target = .pointer a)
    (hw : w.Strolling key a owner cursor r keys) :
    cs.Forall₂ (CursorCall.Answers shape key value cursor)
        (itinerary keys (cs.map CursorCall.map)) ∧
      ∃ keys', w'.Strolling key a owner cursor r keys' := by
  -- By induction on the walk: a step takes the cursor on, and nothing else touches it.
  induction h generalizing keys with
  | done => exact ⟨.nil, keys, hw⟩
  | next argument maps shown _ ih =>
    obtain ⟨n, w₁, hout, hgives, hw₁⟩ :=
      (Exec.ends_next hw hexposed htarget argument maps shown).exists_ok
    rw [hout] at ih
    obtain ⟨hanswers, hlast⟩ := ih hw₁
    refine ⟨.cons ⟨n, ?_, ?_⟩ hanswers, hlast⟩
    · exact congrArg Prod.fst hout
    · rw [CursorCall.outcome, hout]
      exact hgives
  | operate op container _ ih => exact ih (hw.operate op container)
  | sweep reached _ ih => exact ih (hw.sweep reached).1
  | collect kempt reached _ ih =>
    obtain ⟨n, w₁, hout, hw₁⟩ := (hw.collect kempt reached _).exists_ok
    rw [hout] at ih
    exact ih hw₁
  | runFinalizer other framed bridge _ ih => exact ih (hw.runFinalizer other framed bridge _)
  | pass spares _ ih => exact ih (hw.spared spares)

theorem World.exists_record_of_container? {kind : ContainerKind}
    (hc : w.container? (.userdata owner) = some (kind, a)) :
    ∃ r, w.record? owner = some r ∧ r.exposed = .container kind ∧ r.target = .pointer a := by
  rw [container?] at hc
  simp only [Value.userdata?, Option.bind_some] at hc
  cases hr : w.binding.machine.record? owner with
  | none => simp [hr] at hc
  | some r =>
    simp only [hr] at hc
    split at hc
    · rename_i kind' a' hexposed htarget
      obtain ⟨rfl, rfl⟩ := Prod.mk.inj (Option.some.inj hc)
      exact ⟨r, hr, hexposed, htarget⟩
    · exact absurd hc (by simp)

theorem World.container?_of_record {kind : ContainerKind} (hr : w.record? owner = some r)
    (hexposed : r.exposed = .container kind) (htarget : r.target = .pointer a) :
    w.container? (.userdata owner) = some (kind, a) := by
  have hr' : w.binding.machine.record? owner = some r := hr
  rw [container?]
  simp only [Value.userdata?, Option.bind_some, hr', hexposed, htarget]

/-- **A walk begins** with all keys of the map to come. -/
theorem World.strolling_begun (hr : w.record? owner = some r)
    (huserdata : w.binding.machine.heap.userdata.Sound) (hd : w.Maps a d) (keys : List Datum)
    (kind : ContainerKind) (metatable : Option Nat) :
    World.Strolling { w with
        binding.machine := w.binding.machine.beginWalk kind
          ⟨.cursor ⟨key, keys, 0⟩, metatable, .userdata owner, false⟩ } key a owner
      w.binding.machine.heap.userdata.nextId r keys where
  cursor := by
    refine ⟨⟨.cursor ⟨key, keys, 0⟩, metatable, .userdata owner, false⟩, ⟨key, keys, 0⟩, ?_, rfl, rfl,
      rfl, rfl⟩
    show (w.binding.machine.heap.userdata.insert _).get? _ = _
    rw [huserdata.get?_insert, if_pos rfl]
  owner := by
    show ((w.binding.machine.heap.userdata.insert _).get? owner).bind _ = _
    have hne : owner ≠ w.binding.machine.heap.userdata.nextId := by
      rintro rfl
      have hnone := huserdata.get?_nextId
      obtain ⟨u, hu, -⟩ := Option.bind_eq_some_iff.1 hr
      exact absurd (hnone.symm.trans hu) (by simp)
    rw [huserdata.get?_insert, if_neg hne]
    exact hr
  maps := ⟨d, hd⟩

/-- **The steps of a walk follow the keys that were taken down when it began**, whatever happens to the
map meanwhile. Each step gives the first key not yet passed that the map has at that moment, with the
value it has then. So the keys come in the order in which they were taken down, each of them once at
most, and after the last one the steps give nothing any more. All the while the userdata of the map has
the record that it had, and a map is where it was; a cycle of the collector that reaches the cursor does
not find the userdata due. -/
theorem MapCursor.follows_snapshot
    (harg : w.binding.machine.valueAt 1 = .userdata owner)
    (hc : w.container? (.userdata owner) = some (.map shape key value, a)) (hd : w.Maps a d)
    (huserdata : w.binding.machine.heap.userdata.Sound)
    (hcursor : cursor = w.binding.machine.heap.userdata.nextId) :
    (Exec.containerPairs.outcome w).1 = .ok 3 ∧
      (Exec.containerPairs.outcome w).2.binding.machine.stack =
        ((w.binding.machine.stack.push (.function w.binding.machine.heap.functions.nextId)).push
          (.userdata cursor)).push .nil ∧
      ∀ cs w', Stroll shape key value a owner cursor (Exec.containerPairs.outcome w).2 cs w' →
        cs.Forall₂ (CursorCall.Answers shape key value cursor)
          (itinerary (shape.keys d) (cs.map CursorCall.map)) ∧
        (∃ (visits : List (Datum × Datum)) (n : Nat),
          itinerary (shape.keys d) (cs.map CursorCall.map) =
            visits.map some ++ List.replicate n none ∧
          (visits.map Prod.fst).Sublist (shape.keys d) ∧ (visits.map Prod.fst).Nodup ∧
          visits.length ≤ (shape.keys d).length) ∧
        w'.record? owner = w.record? owner ∧
        w'.container? (.userdata owner) = some (.map shape key value, a) ∧ (∃ d', w'.Maps a d') ∧
        (cursor ∉ (Exec.flushed w').unreached →
          ∀ due w'', Exec.sweep.outcome w' = (.ok due, w'') → owner ∉ due) := by
  subst hcursor
  obtain ⟨r, hr, hexposed, htarget⟩ := World.exists_record_of_container? hc
  have hbegun := (Exec.ends_containerPairs (Q := fun n w' ↦ n = 3 ∧ w' = { w with
    binding.machine := w.binding.machine.beginWalk (.map shape key value)
      ⟨.cursor ⟨key, shape.keys d, 0⟩, some w.binding.tables.cursorMetatable, .userdata owner, false⟩ })
    (E := fun _ _ ↦ False) harg hc hd).2 ⟨rfl, rfl⟩
  obtain ⟨n, w₁, hout, rfl, hw₁⟩ := hbegun.exists_ok
  have hstrolling : w₁.Strolling key a owner w.binding.machine.heap.userdata.nextId r (shape.keys d) :=
    hw₁ ▸ World.strolling_begun hr huserdata hd _ _ _
  rw [hout]
  refine ⟨rfl, by rw [hw₁]; rfl, fun cs w' hstroll ↦ ?_⟩
  obtain ⟨hanswers, keys', hlast⟩ := hstroll.follows hexposed htarget hstrolling
  obtain ⟨visits, n, heq, hsub⟩ := exists_itinerary (shape.keys d) (cs.map CursorCall.map)
  refine ⟨hanswers, ⟨visits, n, heq, hsub, hsub.nodup (shape.nodup_keys d), ?_⟩,
    hlast.owner.trans hr.symm, World.container?_of_record hlast.owner hexposed htarget, hlast.maps,
    fun hreached due w'' hsweep ↦ ((hlast.sweep hreached).2 due w'' hsweep).1⟩
  rw [← List.length_map (f := Prod.fst)]
  exact hsub.length_le

end

/-! ### A walk with a removal and a cycle -/

namespace Dict

/-- Three integers bound to texts, the greatest one bound last. -/
def trio : Dict Datum Datum :=
  .ofList [(.int 1, .text "x"), (.int 2, .text "y"), (.int 3, .text "z")]

/-- Two of them are left. -/
def duo : Dict Datum Datum :=
  trio.erase (.int 2)

end Dict

namespace World

/-- On the stack is a hashed map of the host. -/
def trioStart : World :=
  (Session.lobby.run
    [.act (.container (.pushOwned (.map .hashed (.int .i64) .text) (.map .trio)))]).world

/-- The cursor of the walk over the map. -/
def trioCursor : Nat :=
  trioStart.binding.machine.heap.userdata.nextId

/-- A function starts with some arguments. -/
def holding (w : World) (args : List Value) : World :=
  { w with
    binding.machine.stack := args.toArray
    binding.machine.frames := [] }

/-- The step function of the walk. -/
def trioStep (w : World) : World :=
  ((Builtin.advance (.map .hashed (.int .i64) .text)).run.outcome w).2

/-- The walk has begun, and its step function is called. -/
def trioFirst : World :=
  (Exec.containerPairs.outcome trioStart).2.holding [.userdata trioCursor]

/-- After the first step the key that would be next is to be removed. -/
def trioRemoving : World :=
  (trioStep trioFirst).holding [trioStart.binding.machine.valueAt 1, .integer 2]

/-- Then only the cursor is left on the stack. -/
def trioRemoved : World :=
  (MapOp.remove.builtin.run.outcome trioRemoving).2.holding [.userdata trioCursor]

/-- A cycle of the collector has been run, and the step function is called again. -/
def trioSecond : World :=
  ((Exec.collect (Exec.runner 1)).outcome trioRemoved).2

theorem spares_holding {w : World} {a : Address} {owner cursor : Nat} (hmaps : ∃ d, w.Maps a d)
    (args : List Value) : w.Spares a owner cursor (w.holding args) :=
  spares_of_get? rfl rfl hmaps

end World

/-- The greatest key is given, the one after it has gone, the last one is given, and that is all. -/
theorem MapCursor.follows_snapshot_trio :
    List.Forall₂ (CursorCall.Answers .hashed (.int .i64) .text World.trioCursor)
      [⟨World.trioFirst, .trio⟩, ⟨World.trioSecond, .duo⟩, ⟨World.trioStep World.trioSecond, .duo⟩]
      [some (.int 3, .text "z"), some (.int 1, .text "x"), none] := by
  have harg : World.trioStart.binding.machine.valueAt 1 = .userdata 0 := by decide +kernel
  have hcontainer : World.trioStart.container? (.userdata 0) =
      some (.map .hashed (.int .i64) .text, World.trioStart.charted) := by decide +kernel
  have hsound : World.trioStart.binding.machine.heap.userdata.Sound := by decide +kernel
  have hrooted : World.trioCursor ∉ (Exec.flushed World.trioRemoved).unreached :=
    not_not.2 (.root (List.mem_filterMap.2 ⟨.userdata World.trioCursor, by decide +kernel, rfl⟩))
  have hkempt : World.trioRemoved.LooksKempt := by decide +kernel
  have htrio : Dict.trio.Shown (.int .i64) .text := by decide
  have hduo : Dict.duo.Shown (.int .i64) .text := by decide
  have hstroll : Stroll .hashed (.int .i64) .text World.trioStart.charted 0 World.trioCursor
      (Exec.containerPairs.outcome World.trioStart).2
      [⟨World.trioFirst, .trio⟩, ⟨World.trioSecond, .duo⟩, ⟨World.trioStep World.trioSecond, .duo⟩]
      (World.trioStep (World.trioStep World.trioSecond)) :=
    .pass (World.spares_holding ⟨.trio, by decide +kernel⟩ _) <|
    .next (by decide +kernel) (by decide +kernel) htrio <|
    .pass (World.spares_holding ⟨.trio, by decide +kernel⟩ _) <|
    .operate .remove (by decide +kernel) <|
    .pass (World.spares_holding ⟨.duo, by decide +kernel⟩ _) <|
    .collect hkempt.kempt hrooted <|
    .next (by decide +kernel) (by decide +kernel) hduo <|
    .next (by decide +kernel) (by decide +kernel) hduo .done
  have hitinerary : itinerary (MapShape.hashed.keys .trio) [.trio, .duo, .duo] =
      [some (.int 3, .text "z"), some (.int 1, .text "x"), none] := by decide
  rw [← hitinerary]
  exact ((MapCursor.follows_snapshot harg hcontainer (by decide +kernel) hsound rfl).2.2 _ _
    hstroll).1

end ObjectBridge
