import ObjectBridge.Proofs.Identity
import ObjectBridge.Proofs.Pinned

/-!
# Handles to pinned objects

A binding is used by a host that holds handles to pinned objects (`Pinning`). What the host does with
them, and whatever else happens in the binding, is a step (`Pinning.Step`): values are pinned, handles
are copied, used and dropped at any time, calls are entered, the collector runs, and everything else leaves
pins and their table alone (`World.SparesPins`).

After any number of steps a handle that is held has the reference it had and pushes the value that was
pinned, whose object is still there; no two pins share a slot or a reference; and once the queue of released
references has been worked off, the table holds the values of the handles and nothing else
(`Pinning.holds_of_run`). Calls, and cycles of the collector with the finalizers that they run, are made of
such steps if their callees are (`Exec.Minds`).
-/

namespace ObjectBridge

namespace Machine

/-- Storing a value in a table that is there. -/
theorem reference_of_table {m : Machine} {table : Nat} {t : Table}
    (ht : m.heap.tables.get? table = some t) {v : Value} (hv : v ≠ .nil) :
    m.reference table v =
      ((t.nextReference : Int), { m with heap := m.heap.modifyTable table (·.reference v) }) := by
  have hnil : v.isNil = false := by cases v <;> first | rfl | exact absurd rfl hv
  simp only [reference, hnil, Bool.false_eq_true, if_false, ht]

end Machine

namespace Exec

variable {w : World} {t : PinTable} {T : Table} {E : Interrupt → World → Prop}

theorem valueAt_flushed (w : World) (idx : Int) :
    (flushed w).binding.machine.valueAt idx = w.binding.machine.valueAt idx := by
  obtain ⟨tables, hmachine, -⟩ := machine_flushed w
  rw [hmachine]
  rfl

/-- **Pinning a value** works off the queue first; nil is not pinned. -/
theorem ends_pinValue (hp : (flushed w).HasPins t T) (idx : Int)
    {Q : Option PinHandle → World → Prop}
    (hnil : w.binding.machine.valueAt idx = .nil → Q none (flushed w))
    (hpin : w.binding.machine.valueAt idx ≠ .nil → Q (some ⟨w.binding.number, t.nextIndex⟩)
      (pinned (flushed w) (w.binding.machine.valueAt idx) T.nextReference)) :
    Ends (pinValue idx) Q E w := by
  rw [← valueAt_flushed] at hnil hpin
  have hindex : ((flushed w).pins[(flushed w).binding.number]?.getD {}).nextIndex = t.nextIndex :=
    congrArg PinTable.nextIndex hp.pinTable_eq
  rw [pinValue, ends_bind, ends_flushPins]
  simp only [valueAt, ends_bind, ends_machine, ends_pure]
  cases hv : ((flushed w).binding.machine.valueAt idx).isNil with
  | true =>
    have hvalue : (flushed w).binding.machine.valueAt idx = .nil := by
      cases h : (flushed w).binding.machine.valueAt idx <;> simp_all [Value.isNil]
    exact hnil hvalue
  | false =>
    have hvalue : (flushed w).binding.machine.valueAt idx ≠ .nil := by
      intro h
      rw [h] at hv
      exact absurd hv (by decide)
    simp only [Bool.false_eq_true, if_false, ends_bind, ends_binding, ends_updateMachine, ends_get,
      ends_modifyPins, ends_pure, Machine.reference_of_table hp.table hvalue, hindex]
    exact hpin hvalue

variable {h : PinHandle} (howner : h.owner = w.binding.number)

include howner

theorem outcome_pinReference :
    (pinReference h).outcome w = (.ok (w.pinTable.reference? h.index), w) := by
  rw [World.pinTable, ← howner]
  rfl

theorem ends_pushPin {r : Int} (hr : w.pinTable.reference? h.index = some r)
    {Q : Unit → World → Prop}
    (hQ : Q () (w.pushing (w.binding.machine.rawGetPosition w.binding.tables.pinned r))) :
    Ends (pushPin h) Q E w := by
  rw [World.pinTable, ← howner] at hr
  simp only [pushPin, pinReference, ends_bind, ends_binding, ends_get, ends_pure, hr]
  exact hQ

end Exec

/-- A binding, in the world that is seen from it, and the handles to its pins that the host holds. -/
structure Pinning where
  world : World
  held : List Held

namespace Pinning

variable {s s' : Pinning} {h : Held} {w' : World}

/-- A handle that is held, as the host has it. -/
def handle (s : Pinning) (h : Held) : PinHandle :=
  ⟨s.world.binding.number, h.index⟩

/-- What is held when the value at an index has been pinned. -/
def gained (s : Pinning) (idx : Int) (index : Nat) (r : Int) : Held :=
  ⟨index, r, s.world.binding.machine.valueAt idx, s.world.there (s.world.binding.machine.valueAt idx)⟩

/-- The references that wait to be released. -/
def queue (s : Pinning) : List Int :=
  s.world.pinTable.released

/-- **A step**: something that the host does with pins, or something else that happens. -/
inductive Step : Pinning → Pinning → Prop
  /-- A value is pinned. -/
  | pin {s : Pinning} {idx : Int} {handle : PinHandle} {r : Int} {w' : World}
      (done : (Exec.pinValue idx).outcome s.world = (.ok (some handle), w'))
      (named : (Exec.pinReference handle).outcome w' = (.ok (some r), w')) :
      Step s ⟨w', s.gained idx handle.index r :: s.held⟩
  /-- There is nothing to pin. -/
  | pinNil {s : Pinning} {idx : Int} {w' : World}
      (done : (Exec.pinValue idx).outcome s.world = (.ok none, w')) : Step s ⟨w', s.held⟩
  /-- A handle is copied. -/
  | clone {s : Pinning} {h : Held} (mem : h ∈ s.held) : Step s
      ⟨((Exec.modifyPins (s.handle h).owner (·.addHandle (s.handle h).index)).outcome s.world).2,
        h :: s.held⟩
  /-- A handle is dropped. -/
  | drop {s : Pinning} {h : Held} (mem : h ∈ s.held) :
      Step s ⟨((Exec.dropPin (s.handle h)).outcome s.world).2, s.held.erase h⟩
  /-- A pinned value is pushed. -/
  | push {s : Pinning} {h : Held} (mem : h ∈ s.held) :
      Step s ⟨((Exec.pushPin (s.handle h)).outcome s.world).2, s.held⟩
  /-- A call is entered, or refused. -/
  | enter {s : Pinning} (nargs : Nat) : Step s ⟨((Exec.enter nargs).outcome s.world).2, s.held⟩
  /-- The collector runs a cycle, complete or not. -/
  | sweep {s : Pinning} : Step s ⟨(Exec.sweep.outcome s.world).2, s.held⟩
  /-- Anything else. -/
  | other {s : Pinning} {w' : World} (spares : s.world.SparesPins w') : Step s ⟨w', s.held⟩

/-- Any number of steps. -/
abbrev Run : Pinning → Pinning → Prop :=
  Relation.ReflTransGen Step

/-! ### What steps keep up -/

/-- **Pins are in order**, and what is pinned is there. -/
structure Sound (s : Pinning) : Prop where
  keeps : ∃ t T, s.world.HasPins t T ∧ t.Keeps T s.held
  there : ∀ {h}, h ∈ s.held → h.there = true → s.world.there h.value = true

theorem Sound.spares (hs : s.Sound) (h : s.world.SparesPins w') : Sound ⟨w', s.held⟩ where
  keeps := by
    obtain ⟨t, T, hp, hk⟩ := hs.keeps
    exact ⟨t, T, h.hasPins hp, hk⟩
  there hh hthere := World.there_of_live h.live (hs.there hh hthere)

/-- What changes pins to others that are in order keeps what is pinned. -/
theorem sound_of_changes {w : World} {t : PinTable} {T : Table} {held : List Held}
    {f : PinTable → PinTable} {g : Table → Table} (hp : w.HasPins t T) (h : w.ChangesPins f g w')
    (hk : (f t).Keeps (g T) held)
    (hthere : ∀ {h}, h ∈ held → h.there = true → w.there h.value = true) : Sound ⟨w', held⟩ where
  keeps := ⟨f t, g T, h.hasPins hp, hk⟩
  there hh hv := World.there_of_live h.live (hthere hh hv)

/-- **The queue is worked off.** -/
theorem Sound.flush (hs : s.Sound) : Sound ⟨Exec.flushed s.world, s.held⟩ := by
  obtain ⟨t, T, hp, hk⟩ := hs.keeps
  have hchanges := Exec.changesPins_flushed s.world
  rw [hp.pinTable_eq] at hchanges
  exact sound_of_changes hp hchanges hk.flush hs.there

/-- What is true of a handle that is new: no handle that is held has its slot or its reference. -/
def Gains (s : Pinning) (idx : Int) (handle : PinHandle) (w' : World) : Prop :=
  ∃ r, (Exec.pinReference handle).outcome w' = (.ok (some r), w') ∧
    (∀ h ∈ s.held, handle.index ≠ h.index ∧ r ≠ h.reference) ∧
    Sound ⟨w', s.gained idx handle.index r :: s.held⟩

/-- **What is pinned is new.** -/
theorem Sound.pin (hs : s.Sound) {idx : Int} {handle : PinHandle}
    (done : (Exec.pinValue idx).outcome s.world = (.ok (some handle), w')) :
    s.Gains idx handle w' := by
  obtain ⟨⟨t, T, hp, hk⟩, hthere⟩ := hs.flush
  refine (Exec.ends_pinValue (E := fun _ _ ↦ True) hp idx
    (Q := fun a w' ↦ a = some handle → s.Gains idx handle w') (fun _ h ↦ absurd h (by simp))
      fun hv h ↦ ?_).ok done rfl
  obtain rfl := Option.some.inj h
  have hchanges := Exec.changesPins_pinned (Exec.flushed s.world)
    (s.world.binding.machine.valueAt idx) T.nextReference
  have hk' : (t.add T.nextReference).Keeps (T.reference (s.world.binding.machine.valueAt idx))
      (s.gained idx t.nextIndex T.nextReference :: s.held) := hk.add hv rfl
  have hr : (t.add T.nextReference).reference? t.nextIndex = some (T.nextReference : Int) :=
    hk'.reference?_eq List.mem_cons_self
  refine ⟨T.nextReference, ?_, fun h hh ↦ ⟨(hk.index_ne_nextIndex hh).symm,
    (hk.reference_ne_nextReference hh).symm⟩,
    ⟨⟨_, _, hchanges.hasPins hp, hk'⟩, fun {h} hh hv ↦ ?_⟩⟩
  · rw [Exec.outcome_pinReference rfl, (hchanges.hasPins hp).pinTable_eq, hr]
  · refine World.there_of_live hchanges.live ?_
    rcases List.mem_cons.1 hh with rfl | hold
    · exact World.there_of_live (Exec.changesPins_flushed s.world).live hv
    · exact hthere hold hv

/-- What is pinned is there after a cycle, whatever becomes of the rest. -/
theorem Sound.thin (hs : s.Sound) {m : Machine} (h : s.world.Thinned m) :
    Sound ⟨s.world.withBinding m s.world.binding.cache, s.held⟩ := by
  obtain ⟨t, T, hp, hk⟩ := hs.keeps
  exact ⟨⟨t, T, hp.thin hk.strong h, hk⟩, fun hh hthere ↦
    hp.there_thin hk.strong h (hk.stored hh) (hs.there hh hthere)⟩

/-- **Every step keeps pins in order.** -/
theorem Step.sound (h : Step s s') (hs : s.Sound) : s'.Sound := by
  cases h with
  | pin done named =>
    obtain ⟨r, hr, -, hsound⟩ := hs.pin done
    obtain rfl : r = _ := by
      have heq := named.symm.trans hr
      simpa using heq.symm
    exact hsound
  | pinNil done =>
    obtain ⟨t, T, hp, -⟩ := hs.flush.keeps
    exact (Exec.ends_pinValue (E := fun _ _ ↦ True) hp _
      (Q := fun a w' ↦ a = none → Sound ⟨w', s.held⟩) (fun _ _ ↦ hs.flush)
        fun _ h ↦ absurd h (by simp)).ok done rfl
  | clone mem =>
    obtain ⟨t, T, hp, hk⟩ := hs.keeps
    refine sound_of_changes hp (s.world.changesPins_modify _) (hk.addHandle mem) fun hh ↦ ?_
    exact hs.there ((List.mem_cons.1 hh).elim (fun heq ↦ heq ▸ mem) id)
  | drop mem =>
    obtain ⟨t, T, hp, hk⟩ := hs.keeps
    exact sound_of_changes hp (s.world.changesPins_modify _) (hk.dropHandle mem) fun hh ↦
      hs.there (List.mem_of_mem_erase hh)
  | push mem =>
    obtain ⟨t, T, hp, hk⟩ := hs.keeps
    have hr := hk.reference?_eq mem
    rw [← hp.pinTable_eq] at hr
    exact Exec.Ends.world (P := fun w' ↦ Sound ⟨w', s.held⟩) <|
      Exec.ends_pushPin rfl hr (hs.spares (World.Restacked.sparesPins ⟨_, _, rfl⟩))
  | enter nargs =>
    refine Exec.Ends.world (P := fun w' ↦ Sound ⟨w', s.held⟩) ?_
    exact (Exec.ends_enter_restacked s.world nargs).imp (fun _ _ h ↦ hs.flush.spares h.sparesPins)
      fun _ _ h ↦ hs.flush.spares h.sparesPins
  | sweep =>
    refine Exec.Ends.world (P := fun w' ↦ Sound ⟨w', s.held⟩) ?_
    exact Exec.ends_sweep_of_thins (fun hthins ↦ hs.flush.thin hthins)
      fun us h ↦ h.spares ⟨rfl, rfl, rfl, rfl, rfl, id, id⟩
  | other spares => exact hs.spares spares

/-- **Every run keeps pins in order.** -/
theorem Run.sound (h : Run s s') (hs : s.Sound) : s'.Sound := by
  induction h with
  | refl => exact hs
  | tail _ hstep ih => exact hstep.sound ih

/-! ### What the host relies on -/

/-- **What the host relies on.** -/
structure Holds (s : Pinning) : Prop where
  /-- A handle has the reference that it had when the value was pinned. -/
  reference : ∀ {h}, h ∈ s.held →
    (Exec.pinReference (s.handle h)).outcome s.world = (.ok (some h.reference), s.world)
  /-- It pushes the value that was pinned. -/
  pushes : ∀ {h}, h ∈ s.held →
    (Exec.pushPin (s.handle h)).outcome s.world = (.ok (), s.world.pushing h.value)
  /-- The object of that value is there, if it was when the value was pinned. -/
  there : ∀ {h}, h ∈ s.held → h.there = true → s.world.there h.value = true
  /-- Two pins have two slots and two references. -/
  apart : ∀ {h h'}, h ∈ s.held → h' ∈ s.held → h ≠ h' →
    h.index ≠ h'.index ∧ h.reference ≠ h'.reference
  /-- And so have the pins that are held and the next one. -/
  fresh : ∀ {idx handle w'}, (Exec.pinValue idx).outcome s.world = (.ok (some handle), w') →
    ∃ r, (Exec.pinReference handle).outcome w' = (.ok (some r), w') ∧
      ∀ h ∈ s.held, handle.index ≠ h.index ∧ r ≠ h.reference
  /-- Dropping the last handle of a pin queues its reference, which is not in the queue as yet; dropping
  another one queues nothing. -/
  queues : ∀ {h}, h ∈ s.held → h.reference ∉ s.queue ∧
    ((Exec.dropPin (s.handle h)).outcome s.world).2.pinTable.released =
      if s.held.count h = 1 then s.queue ++ [h.reference] else s.queue
  nodup : s.queue.Nodup
  /-- A reference in the queue is not handed out. -/
  waits : ∀ {r}, r ∈ s.queue → ∀ v,
    (s.world.binding.machine.reference s.world.binding.tables.pinned v).1 ≠ r
  /-- Once the queue has been worked off, the table has the values of the handles and nothing else. -/
  flushed : (Exec.flushed s.world).pinTable.released = [] ∧
    ∃ T, (Exec.flushed s.world).table? s.world.binding.tables.pinned = some T ∧ ∀ {k v},
      T.entries.find? k = some v ↔ ∃ h ∈ s.held, k = .integer h.reference ∧ v = h.value

/-- **While pins are in order the host can rely on them.** -/
theorem Sound.holds (hs : s.Sound) : s.Holds := by
  obtain ⟨t, T, hp, hk⟩ := hs.keeps
  have hqueue : s.queue = t.released := congrArg PinTable.released hp.pinTable_eq
  have hreference {h : Held} (hh : h ∈ s.held) :
      s.world.pinTable.reference? (s.handle h).index = some h.reference := by
    rw [hp.pinTable_eq]
    exact hk.reference?_eq hh
  refine ⟨fun hh ↦ ?_, fun {h} hh ↦ ?_, hs.there, fun hh hh' hne ↦
    ⟨fun heq ↦ hne (hk.eq_of_index hh hh' heq), fun heq ↦ hne (hk.unique hh hh' heq)⟩,
    fun done ↦ ?_, fun {h} hh ↦ ⟨hqueue ▸ hk.apart hh, ?_⟩, hqueue ▸ hk.nodup,
    fun {r} hr v ↦ ?_, ?_⟩
  · rw [Exec.outcome_pinReference rfl, hreference hh]
  · have hvalue : s.world.binding.machine.rawGetPosition s.world.binding.tables.pinned h.reference =
        h.value := by
      rw [hp.rawGetPosition_eq, hk.stored hh, Option.getD_some]
    obtain ⟨_, w', houtcome, rfl⟩ := (Exec.ends_pushPin (E := fun _ _ ↦ False) rfl (hreference hh)
      (Q := fun _ w' ↦ w' = s.world.pushing h.value) (by rw [hvalue])).exists_ok
    exact houtcome
  · obtain ⟨r, hr, hnew, -⟩ := hs.pin done
    exact ⟨r, hr, hnew⟩
  · have hdropped := ((s.world.changesPins_modify (·.dropHandle h.index)).hasPins hp).pinTable_eq
    exact (congrArg PinTable.released hdropped).trans ((hk.released_dropHandle hh).trans (by rw [hqueue]))
  · rw [hqueue] at hr
    by_cases hv : v = .nil
    · subst hv
      rintro rfl
      have hpos : (0 : Int) < Machine.refNil := (hk.allocated.2 (.inl hr)).1
      exact absurd hpos (by decide)
    · rw [Machine.reference_of_table hp.table hv]
      exact (hk.ne_nextReference hr).symm
  · have hchanges := Exec.changesPins_flushed s.world
    rw [hp.pinTable_eq] at hchanges
    have hp' := hchanges.hasPins hp
    exact ⟨by rw [hp'.pinTable_eq], _, hp'.table, fun {_ _} ↦ hk.flush.find?_eq_some_iff rfl⟩

/-- **Pins hold as long as handles are held.** Start a session with any number of bindings, and let
anything happen to one of them and to its pins. Then every handle that is held has the reference it had
when its value was pinned, and pushes that value, whose object has not been collected; pins have slots and
references of their own; the last drop of a pin queues its reference, once, and the reference is not handed
out while it is in the queue; and when the queue has been worked off, the table of pinned objects has the
values of the handles and nothing else. -/
theorem holds_of_run {c : Catalogue} {registries : List (List PlanStep)} {plans : List BindingPlan}
    (hne : plans ≠ []) {session : Session} (hstart : Session.start c registries plans = .ok session)
    {k : Nat} {w : World} (hw : session.seen k = some w) (hrun : Run ⟨w, []⟩ s) : s.Holds := by
  have hsound : Sound ⟨w, []⟩ := ⟨⟨{}, {}, Session.hasPins_start hne hstart hw, PinTable.keeps_empty⟩,
    fun hh ↦ absurd hh List.not_mem_nil⟩
  exact (hrun.sound hsound).holds

/-- An actor has been shown on the stage. -/
def shown : World :=
  (Event.pushPointer (some 0x1000) 1).after Session.stage.world

/-- The userdata of the actor has been pinned. -/
def pinned : World :=
  ((Exec.pinValue (-1)).outcome shown).2

/-- The handle has been copied. -/
def copied : World :=
  { pinned with pins := pinned.pins.modify pinned.binding.number (·.addHandle 0) }

/-- One of the two handles has been dropped. -/
def dropped : World :=
  { copied with pins := copied.pins.modify copied.binding.number (·.dropHandle 0) }

/-- The stack has been emptied. -/
def cleared : World :=
  { dropped with binding.machine := dropped.binding.machine.setTop 0 }

/-- After a cycle of the collector, which finds nothing on the stack, the handle that is left pushes the
userdata of the actor. -/
theorem holds_of_run_actor : ∃ s h, Run ⟨Session.stage.world, []⟩ s ∧ s.held = [h] ∧
    s.world.binding.machine.top = 0 ∧
    (Exec.pushPin (s.handle h)).outcome s.world = (.ok (), s.world.pushing (.userdata 0)) ∧
    s.world.there (.userdata 0) = true := by
  let h : Held := ⟨0, 1, .userdata 0, true⟩
  have hfacts : (shown.binding.machine.valueAt (-1) = .userdata 0 ∧ shown.there (.userdata 0) = true) ∧
      ((Exec.pinValue (-1)).outcome shown).1 = .ok (some ⟨0, 0⟩) ∧
      (pinned.binding.number = 0 ∧ pinned.pinTable.reference? 0 = some 1) ∧
      (Exec.sweep.outcome cleared).2.binding.machine.top = 0 := by
    decide +kernel
  obtain ⟨⟨hvalue, hthere⟩, hpin, ⟨hnumber, hreference⟩, htop⟩ := hfacts
  have hshown : Step ⟨Session.stage.world, []⟩ ⟨shown, []⟩ := by
    have hp := Session.hasPins_start (by decide) Session.start_actors Session.stage.seen_current
    have hworks := (Exec.working_pushPointer (Host.upheld_true _ _) (some 0x1000) 1 Session.stage.world rfl rfl
      trivial).imp (fun _ _ h ↦ h.1) fun _ _ h ↦ h.1
    exact .other (hworks.world.sparesPins hp)
  have hpinned : Step ⟨shown, []⟩ ⟨pinned, [h]⟩ := by
    have hnamed := Exec.outcome_pinReference (h := ⟨0, 0⟩) hnumber.symm
    rw [hreference] at hnamed
    have hstep := Step.pin (s := ⟨shown, []⟩) (Exec.outcome_eq_of_fst hpin) hnamed
    rwa [gained, hvalue, hthere] at hstep
  have hcopied : Step ⟨pinned, [h]⟩ ⟨copied, [h, h]⟩ :=
    Step.clone (s := ⟨pinned, [h]⟩) (h := h) List.mem_cons_self
  have hdropped : Step ⟨copied, [h, h]⟩ ⟨dropped, [h]⟩ := by
    have hstep := Step.drop (s := ⟨copied, [h, h]⟩) (h := h) List.mem_cons_self
    rwa [List.erase_cons_head] at hstep
  have hcleared : Step ⟨dropped, [h]⟩ ⟨cleared, [h]⟩ := .other (dropped.restacked_setTop 0).sparesPins
  have hrun : Run ⟨Session.stage.world, []⟩ ⟨(Exec.sweep.outcome cleared).2, [h]⟩ :=
    .tail (.tail (.tail (.tail (.tail (.single hshown) hpinned) hcopied) hdropped) hcleared) .sweep
  have hholds := holds_of_run (by decide) Session.start_actors Session.stage.seen_current hrun
  exact ⟨⟨_, [h]⟩, h, hrun, rfl, htop, hholds.pushes List.mem_cons_self,
    hholds.there List.mem_cons_self rfl⟩

end Pinning

namespace Exec

/-! ### Computations that mind pins -/

variable {α β : Type}

/-- **A computation minds pins**: what it does, however it ends, is made of steps. -/
def Minds (x : Exec α) : Prop :=
  ∀ (w : World) (held : List Held), Pinning.Sound ⟨w, held⟩ →
    Ends x (fun _ w' ↦ ∃ held', Pinning.Run ⟨w, held⟩ ⟨w', held'⟩)
      (fun _ w' ↦ ∃ held', Pinning.Run ⟨w, held⟩ ⟨w', held'⟩) w

namespace Minds

variable {x : Exec α}

/-- What leaves pins alone minds them. -/
theorem spares (h : ∀ w, (∃ t T, w.HasPins t T) → Ends x (fun _ w' ↦ w.SparesPins w')
    (fun _ w' ↦ w.SparesPins w') w) : Minds x := by
  intro w held hs
  obtain ⟨t, T, hp, -⟩ := hs.keeps
  exact (h w ⟨t, T, hp⟩).imp (fun _ _ h ↦ ⟨held, .single (.other h)⟩)
    fun _ _ h ↦ ⟨held, .single (.other h)⟩

theorem restacks (h : Restacks x) : Minds x :=
  spares fun w _ ↦ (h w).imp (fun _ _ h ↦ h.sparesPins) fun _ _ h ↦ h.sparesPins

/-- **What the bridge does minds pins.** -/
theorem working (h : ∀ r d, Working r d (fun _ ↦ True) x) : Minds x :=
  spares fun w ⟨_, _, hp⟩ ↦ (h _ _ w rfl rfl trivial).imp (fun _ _ h ↦ h.1.sparesPins hp)
    fun _ _ h ↦ h.1.sparesPins hp

theorem pure (a : α) : Minds (pure a : Exec α) :=
  fun _ held _ ↦ ⟨held, .refl⟩

theorem bind {f : α → Exec β} (hx : Minds x) (hf : ∀ a, Minds (f a)) : Minds (x >>= f) := by
  intro w held hs
  rw [ends_bind]
  refine (hx w held hs).imp (fun a w₁ h₁ ↦ ?_) fun _ _ h ↦ h
  obtain ⟨held₁, hrun⟩ := h₁
  refine (hf a w₁ held₁ (hrun.sound hs)).imp (fun _ _ h ↦ ?_) fun _ _ h ↦ ?_
  all_goals
    obtain ⟨held', hrun'⟩ := h
    exact ⟨held', hrun.trans hrun'⟩

theorem tryCatch {f : Interrupt → Exec α} (hx : Minds x) (hf : ∀ i, Minds (f i)) :
    Minds (tryCatch x f) := by
  intro w held hs
  rw [ends_tryCatch]
  refine (hx w held hs).imp (fun _ _ h ↦ h) fun i w₁ h₁ ↦ ?_
  obtain ⟨held₁, hrun⟩ := h₁
  refine (hf i w₁ held₁ (hrun.sound hs)).imp (fun _ _ h ↦ ?_) fun _ _ h ↦ ?_
  all_goals
    obtain ⟨held', hrun'⟩ := h
    exact ⟨held', hrun.trans hrun'⟩

theorem map (f : α → β) (hx : Minds x) : Minds (f <$> x) := by
  rw [← bind_pure_comp]
  exact hx.bind fun _ ↦ .pure _

theorem forM {f : α → Exec Unit} (hf : ∀ a, Minds (f a)) (l : List α) : Minds (l.forM f) := by
  induction l with
  | nil => exact .pure _
  | cons a l ih => exact (hf a).bind fun _ ↦ ih

end Minds

/-- The finalizer of the bridge minds pins. -/
theorem minds_finalize : Minds finalize :=
  .working fun r d ↦ working_finalize (Host.upheld_true r d)

/-- What is a step however it ends minds pins. -/
theorem Minds.step {x : Exec α} (h : ∀ s : Pinning, s.Step ⟨(x.outcome s.world).2, s.held⟩) :
    Minds x := by
  intro w held _
  have hstep := h ⟨w, held⟩
  exact ends_iff.2 ⟨fun _ _ hx ↦ ⟨held, .single (by rwa [hx] at hstep)⟩,
    fun _ _ hx ↦ ⟨held, .single (by rwa [hx] at hstep)⟩⟩

theorem minds_enter (nargs : Nat) : Minds (enter nargs) :=
  .step fun _ ↦ .enter nargs

theorem minds_sweep : Minds sweep :=
  .step fun _ ↦ .sweep

section Calls

variable {run : Runner} (hrun : ∀ c, Minds (run c))

include hrun

/-- **A call minds pins** if its callees do. -/
theorem minds_call (nargs : Nat) (nresults : Option Nat) : Minds (call run nargs nresults) := by
  refine (minds_enter nargs).bind fun entered ↦ ?_
  obtain ⟨pos, callee⟩ := entered
  refine (Minds.tryCatch (hrun callee) fun i ↦ ?_).bind fun n ↦
    (Minds.restacks restacks_closeFrame).bind fun _ ↦ .restacks (restacks_placeResults _ _ _)
  cases i with
  | failure f =>
    exact .restacks (restacks_closeFrame.bind fun _ ↦
      (Restacks.modifyMachine fun m ↦ ⟨_, m.frames, rfl⟩).bind fun _ ↦ .throw _)
  | panic | exhausted => exact .restacks (.throw _)

/-- A protected call minds pins. -/
theorem minds_tryCall (nargs : Nat) (nresults : Option Nat) : Minds (tryCall run nargs nresults) := by
  refine (Minds.restacks restacks_machine).bind fun m ↦
    .tryCatch (minds_call hrun nargs nresults) fun i ↦ ?_
  cases i with
  | failure | panic =>
    exact .restacks ((Restacks.modifyMachine fun m ↦ ⟨_, _, rfl⟩).bind fun _ ↦ .throw _)
  | exhausted => exact .restacks (.throw _)

theorem minds_runFinalizer (id : Nat) : Minds (runFinalizer run id) := by
  have hpush (v : Value) : Minds (push v) := .restacks (.modifyMachine fun m ↦ ⟨_, m.frames, rfl⟩)
  have hattempt : Minds (attempt (tryCall run 1 (some 0))) := by
    refine .tryCatch (.map _ (minds_tryCall hrun 1 (some 0))) fun i ↦ ?_
    cases i with
    | failure => exact .pure _
    | panic | exhausted => exact .restacks (.throw _)
  refine (Minds.restacks restacks_machine).bind fun m ↦ ?_
  dsimp only
  split
  · exact .pure _
  · exact (hpush _).bind fun _ ↦ (hpush _).bind fun _ ↦ hattempt.bind fun _ ↦
      .restacks (.modifyMachine fun m ↦ ⟨_, m.frames, rfl⟩)

/-- **A cycle of the collector minds pins**, with all the finalizers that it runs. -/
theorem minds_collect : Minds (collect run) :=
  minds_sweep.bind fun due ↦ (Minds.forM (minds_runFinalizer hrun) due).bind fun _ ↦ .pure _

end Calls

end Exec

end ObjectBridge
