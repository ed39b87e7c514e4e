import ObjectBridge.Proofs.Pinning

/-!
# Handles of several bindings

The host holds handles to pins of any number of bindings (`Holding`), and may use a handle of one
binding in another one. A handle tells its reference, and the binding that is called looks the
reference up in its own table of pinned objects, whoever the handle is of (`Exec.outcome_pushPin`).

So what a handle pushes in another binding depends on numbers alone (`Holding.pushes_of_run`). If a
handle of that binding happens to have the same reference, the value that it pins is pushed. If no
such handle is held and the reference does not wait to be released there, nil is pushed. References
are counted from 1 in every binding, so the first is what happens when both have pinned one value
(`Holding.not_pushes_nil`).
-/

namespace ObjectBridge

namespace World

variable {w w' : World} {t : PinTable} {T : Table}

/-- Something keeps to its binding: it leaves the pins of the others alone. -/
structure KeepsTo (w w' : World) : Prop where
  number : w'.binding.number = w.binding.number
  others : ∀ {k}, k ≠ w.binding.number → w'.pins[k]? = w.pins[k]?

theorem KeepsTo.trans {w'' : World} (h : w.KeepsTo w') (h' : w'.KeepsTo w'') : w.KeepsTo w'' where
  number := h'.number.trans h.number
  others hk := (h'.others (h.number ▸ hk)).trans (h.others hk)

theorem KeepsTo.of_modify {f : PinTable → PinTable} (hnumber : w'.binding.number = w.binding.number)
    (hpins : w'.pins = w.pins.modify w.binding.number f) : w.KeepsTo w' where
  number := hnumber
  others hk := by rw [hpins, Array.getElem?_modify, if_neg (Ne.symm hk)]

end World

namespace Exec

/-- **Pinning keeps to its binding.** -/
theorem keepsTo_pinValue {w w' : World} {t : PinTable} {T : Table} (hp : (flushed w).HasPins t T)
    {idx : Int} {handle : Option PinHandle} (done : (pinValue idx).outcome w = (.ok handle, w')) :
    w.KeepsTo w' := by
  have hflushed : w.KeepsTo (flushed w) := .of_modify (f := fun t ↦ { t with released := [] }) rfl rfl
  exact (ends_pinValue (E := fun _ _ ↦ False) hp idx (Q := fun _ w' ↦ w.KeepsTo w') (fun _ ↦ hflushed)
    fun _ ↦ hflushed.trans (.of_modify (f := (·.add T.nextReference)) rfl rfl)).ok done

/-- **A handle pushes what the binding that is called has under its reference**, nil if it has none. -/
theorem outcome_pushPin (h : PinHandle) (w : World) : (pushPin h).outcome w = (.ok (), w.pushing
    (match (w.pins[h.owner]?.getD {}).reference? h.index with
      | some r => w.binding.machine.rawGetPosition w.binding.tables.pinned r
      | none => .nil)) := by
  have hends : Ends (pushPin h) (fun _ w' ↦ w' = w.pushing
      (match (w.pins[h.owner]?.getD {}).reference? h.index with
        | some r => w.binding.machine.rawGetPosition w.binding.tables.pinned r
        | none => .nil)) (fun _ _ ↦ False) w := by
    simp only [pushPin, pinReference, ends_bind, ends_binding, ends_get, ends_pure]
    cases (w.pins[h.owner]?.getD {}).reference? h.index <;> exact rfl
  obtain ⟨_, w', houtcome, rfl⟩ := hends.exists_ok
  exact houtcome

end Exec

/-- A session, and the handles to the pins of each of its bindings that the host holds. -/
structure Holding where
  session : Session
  held : Nat → List Held

namespace Holding

variable {s s' : Holding} {k : Nat} {w : World} {h : Held}

/-- The session after the pins of a binding have been changed. -/
def withPins (s : Session) (k : Nat) (f : PinTable → PinTable) : Session :=
  { s with world := { s.world with pins := s.world.pins.modify k f } }

/-- **A step**: something happens in the binding that is called, another binding is called, or a handle
to a pin of whatever binding is copied or dropped. -/
inductive Step : Holding → Holding → Prop
  | happen {s : Holding} {p : Pinning}
      (step : Pinning.Step ⟨s.session.world, s.held s.session.current⟩ p)
      (keeps : s.session.world.KeepsTo p.world) :
      Step s ⟨{ s.session with world := p.world }, Function.update s.held s.session.current p.held⟩
  | turn {s : Holding} (k : Nat) : Step s ⟨s.session.turn k, s.held⟩
  | clone {s : Holding} {k : Nat} {w : World} {h : Held} (seen : s.session.seen k = some w)
      (mem : h ∈ s.held k) :
      Step s ⟨withPins s.session k (·.addHandle h.index), Function.update s.held k (h :: s.held k)⟩
  | drop {s : Holding} {k : Nat} {w : World} {h : Held} (seen : s.session.seen k = some w)
      (mem : h ∈ s.held k) :
      Step s ⟨withPins s.session k (·.dropHandle h.index),
        Function.update s.held k ((s.held k).erase h)⟩

/-- Any number of steps. -/
abbrev Run : Holding → Holding → Prop :=
  Relation.ReflTransGen Step

/-! ### What steps keep up -/

/-- **The pins of every binding are in order.** -/
structure Sound (s : Holding) : Prop where
  current_lt : s.session.current < s.session.bindings.size
  number : ∀ {k w}, s.session.seen k = some w → w.binding.number = k
  pinning : ∀ {k w}, s.session.seen k = some w → Pinning.Sound ⟨w, s.held k⟩

theorem pins_of_seen {s : Session} (hw : s.seen k = some w) : w.pins = s.world.pins := by
  rw [Session.seen] at hw
  split at hw
  · rw [Option.some.inj hw]
  · obtain ⟨b, -, rfl⟩ := Option.map_eq_some_iff.1 hw
    rfl

/-- Pins that are in order for every binding that was there before. -/
theorem Sound.after (hs : s.Sound) (hlt : s'.session.current < s'.session.bindings.size)
    (h : ∀ {k w'}, s'.session.seen k = some w' → ∃ w, s.session.seen k = some w ∧
      w'.binding.number = w.binding.number ∧ Pinning.Sound ⟨w', s'.held k⟩) : s'.Sound where
  current_lt := hlt
  number hw' := by
    obtain ⟨w, hw, hnumber, -⟩ := h hw'
    exact hnumber.trans (hs.number hw)
  pinning hw' := by
    obtain ⟨-, -, -, hpinning⟩ := h hw'
    exact hpinning

/-- What happens elsewhere leaves the pins of a binding in order. -/
theorem Sound.elsewhere (hs : s.Sound) (hw : s.session.seen k = some w) (w' : World)
    (hpins : w'.pins[k]? = s.session.world.pins[k]?) :
    Pinning.Sound ⟨{ w' with binding := w.binding }, s.held k⟩ := by
  refine (hs.pinning hw).spares ⟨rfl, rfl, ?_, rfl, rfl, id, id⟩
  rw [pins_of_seen hw, hs.number hw]
  exact hpins

theorem Sound.happen (hs : s.Sound) {p : Pinning}
    (hstep : Pinning.Step ⟨s.session.world, s.held s.session.current⟩ p)
    (hkeeps : s.session.world.KeepsTo p.world) :
    Sound ⟨{ s.session with world := p.world },
      Function.update s.held s.session.current p.held⟩ := by
  have hcurrent := s.session.seen_current
  refine hs.after hs.current_lt fun {k w'} hw' ↦ ?_
  dsimp only at hw' ⊢
  rw [Session.seen_withWorld] at hw'
  by_cases hk : k = s.session.current
  · subst hk
    rw [if_pos rfl] at hw'
    obtain rfl := Option.some.inj hw'
    rw [Function.update_self]
    exact ⟨_, hcurrent, hkeeps.number, hstep.sound (hs.pinning hcurrent)⟩
  · rw [if_neg hk] at hw'
    obtain ⟨w, hw, rfl⟩ := Option.map_eq_some_iff.1 hw'
    rw [Function.update_of_ne hk]
    exact ⟨w, hw, rfl, hs.elsewhere hw p.world (hkeeps.others (hs.number hcurrent ▸ hk))⟩

theorem Sound.turn (hs : s.Sound) (k : Nat) : Sound ⟨s.session.turn k, s.held⟩ := by
  refine hs.after (Session.current_move_lt hs.current_lt (.turn k)) fun {k' w'} hw' ↦ ?_
  dsimp only at hw'
  rw [Session.seen_turn hs.current_lt k] at hw'
  obtain ⟨w, hw, rfl⟩ := Option.map_eq_some_iff.1 hw'
  have hpins : w.pins[k']? = s.session.world.pins[k']? := by rw [pins_of_seen hw]
  exact ⟨w, hw, rfl, hs.elsewhere hw { w with desk := (s.session.turn k).world.desk } hpins⟩

/-- The pins of one binding are changed, and they are in order for other handles. -/
theorem Sound.withPins (hs : s.Sound) {f : PinTable → PinTable} {held' : List Held}
    (hw : s.session.seen k = some w)
    (hkeeps : Pinning.Sound ⟨{ w with pins := w.pins.modify w.binding.number f }, held'⟩) :
    Sound ⟨withPins s.session k f, Function.update s.held k held'⟩ := by
  have hseen {k' : Nat} {w' : World} (hw' : s.session.seen k' = some w') :
      w' = { s.session.world with binding := w'.binding } :=
    (Session.binding_of_seen hs.current_lt hw').2
  refine hs.after hs.current_lt fun {k' w'} hw' ↦ ?_
  dsimp only [Holding.withPins] at hw' ⊢
  obtain ⟨w₀, hw₀, rfl⟩ : ∃ w₀, s.session.seen k' = some w₀ ∧
      w' = { s.session.world with pins := s.session.world.pins.modify k f, binding := w₀.binding } := by
    rw [Session.seen_withWorld] at hw'
    split at hw'
    · rename_i hk
      exact ⟨_, hk ▸ s.session.seen_current, (Option.some.inj hw').symm⟩
    · obtain ⟨w₀, hw₀, rfl⟩ := Option.map_eq_some_iff.1 hw'
      exact ⟨w₀, hw₀, rfl⟩
  refine ⟨w₀, hw₀, rfl, ?_⟩
  by_cases hk : k' = k
  · subst hk
    obtain rfl := Option.some.inj (hw.symm.trans hw₀)
    rw [hs.number hw, hseen hw] at hkeeps
    rw [Function.update_self]
    exact hkeeps
  · rw [Function.update_of_ne hk]
    refine hs.elsewhere hw₀ { s.session.world with pins := s.session.world.pins.modify k f } ?_
    rw [Array.getElem?_modify, if_neg (Ne.symm hk)]

/-- **Every step keeps the pins of all bindings in order.** -/
theorem Step.sound (hstep : Step s s') (hs : s.Sound) : s'.Sound := by
  cases hstep with
  | happen step keeps => exact hs.happen step keeps
  | turn k => exact hs.turn k
  | clone seen mem => exact hs.withPins seen ((Pinning.Step.clone mem).sound (hs.pinning seen))
  | drop seen mem => exact hs.withPins seen ((Pinning.Step.drop mem).sound (hs.pinning seen))

/-- **Every run keeps the pins of all bindings in order.** -/
theorem Run.sound (hrun : Run s s') (hs : s.Sound) : s'.Sound := by
  induction hrun with
  | refl => exact hs
  | tail _ hstep ih => exact hstep.sound ih

/-- **In a session that has been started** no binding has pins. -/
theorem sound_start {c : Catalogue} {registries : List (List PlanStep)} {plans : List BindingPlan}
    (hne : plans ≠ []) (hplans : ∀ p ∈ plans, p.registry < registries.length) {session : Session}
    (hstart : Session.start c registries plans = .ok session) : Sound ⟨session, fun _ ↦ []⟩ where
  current_lt := (Session.sound_start hne hplans hstart).current_lt
  number hw := Session.number_start hne hstart hw
  pinning hw := ⟨⟨{}, {}, Session.hasPins_start hne hstart hw, PinTable.keeps_empty⟩,
    fun hh ↦ absurd hh List.not_mem_nil⟩

/-! ### Handles in other bindings -/

/-- **What a handle pushes in whatever binding** is what that binding has under its reference. -/
theorem Sound.outcome_pushPin (hs : s.Sound) {a b : Nat} {wa : World} (hwa : s.session.seen a = some wa)
    (hh : h ∈ s.held a) (hw : s.session.seen b = some w) : ∃ t T, w.HasPins t T ∧
      t.Keeps T (s.held b) ∧ (Exec.pushPin ⟨a, h.index⟩).outcome w =
        (.ok (), w.pushing ((T.entries.find? (.integer h.reference)).getD .nil)) := by
  obtain ⟨t, T, hp, hk⟩ := (hs.pinning hw).keeps
  obtain ⟨ta, Ta, hpa, hka⟩ := (hs.pinning hwa).keeps
  have hreference : (w.pins[a]?.getD {}).reference? h.index = some h.reference := by
    have hpins := hpa.pins
    dsimp only at hpins
    rw [hs.number hwa, pins_of_seen hwa, ← pins_of_seen hw] at hpins
    rw [hpins]
    exact hka.reference?_eq hh
  refine ⟨t, T, hp, hk, ?_⟩
  rw [Exec.outcome_pushPin]
  dsimp only
  rw [hreference]
  dsimp only
  rw [hp.rawGetPosition_eq]

/-- **A reference that two bindings have** pushes the value of the binding that is called. -/
theorem Sound.pushes_own (hs : s.Sound) {a b : Nat} {wa : World} (hwa : s.session.seen a = some wa)
    (hh : h ∈ s.held a) (hw : s.session.seen b = some w) {h' : Held} (hh' : h' ∈ s.held b)
    (heq : h'.reference = h.reference) :
    (Exec.pushPin ⟨a, h.index⟩).outcome w = (.ok (), w.pushing h'.value) := by
  obtain ⟨t, T, -, hk, houtcome⟩ := hs.outcome_pushPin hwa hh hw
  rw [houtcome, ← heq, hk.stored hh', Option.getD_some]

/-- **A reference that the binding does not have** pushes nil. -/
theorem Sound.pushes_nil (hs : s.Sound) {a b : Nat} {wa : World} (hwa : s.session.seen a = some wa)
    (hh : h ∈ s.held a) (hw : s.session.seen b = some w)
    (hother : ∀ h' ∈ s.held b, h'.reference ≠ h.reference)
    (hqueue : h.reference ∉ w.pinTable.released) :
    (Exec.pushPin ⟨a, h.index⟩).outcome w = (.ok (), w.pushing .nil) := by
  obtain ⟨t, T, hp, hk, houtcome⟩ := hs.outcome_pushPin hwa hh hw
  have hfree : ¬ T.Allocated h.reference := by
    rw [hk.allocated, ← hp.pinTable_eq]
    exact not_or.2 ⟨hqueue, fun ⟨h', hh', heq⟩ ↦ hother h' hh' heq⟩
  have hnone : T.entries.find? (.integer h.reference) = none := by
    refine Option.eq_none_iff_forall_not_mem.2 fun v hv ↦ ?_
    obtain ⟨r, hr, hallocated⟩ := hk.entries hv
    exact hfree (Key.integer.inj hr ▸ hallocated)
  rw [houtcome, hnone, Option.getD_none]

/-- **A handle pushes by its number**, in its own binding and in every other one. Start a session with any
number of bindings, let anything happen to them and to their pins, and use a handle of one binding in
another one, or in the same. If a handle of the binding that is called has the same reference, the value
that this handle pins is pushed. If no handle of that binding has the reference, and it does not wait to be
released there, nil is pushed. -/
theorem pushes_of_run {c : Catalogue} {registries : List (List PlanStep)} {plans : List BindingPlan}
    (hne : plans ≠ []) (hplans : ∀ p ∈ plans, p.registry < registries.length) {session : Session}
    (hstart : Session.start c registries plans = .ok session) (hrun : Run ⟨session, fun _ ↦ []⟩ s)
    {a b : Nat} {wa : World} (hwa : s.session.seen a = some wa) (hh : h ∈ s.held a)
    (hw : s.session.seen b = some w) :
    (∀ h' ∈ s.held b, h'.reference = h.reference →
      (Exec.pushPin ⟨a, h.index⟩).outcome w = (.ok (), w.pushing h'.value)) ∧
    ((∀ h' ∈ s.held b, h'.reference ≠ h.reference) → h.reference ∉ w.pinTable.released →
      (Exec.pushPin ⟨a, h.index⟩).outcome w = (.ok (), w.pushing .nil)) := by
  have hs := hrun.sound (sound_start hne hplans hstart)
  exact ⟨fun h' ↦ hs.pushes_own hwa hh hw, hs.pushes_nil hwa hh hw⟩

/-! ### Two bindings -/

/-- A value is pushed. -/
theorem step_push (s : Holding) (v : Value) :
    Step s ⟨{ s.session with world := s.session.world.pushing v }, s.held⟩ := by
  have hstep : Pinning.Step ⟨s.session.world, s.held s.session.current⟩
      ⟨s.session.world.pushing v, s.held s.session.current⟩ :=
    .other (World.Restacked.sparesPins ⟨_, _, rfl⟩)
  have h := Step.happen hstep ⟨rfl, fun _ ↦ rfl⟩
  rwa [Function.update_eq_self] at h

/-- A value is pinned. -/
theorem Sound.step_pin (hs : s.Sound) {idx : Int} {handle : PinHandle} {r : Int} {w' : World}
    (done : (Exec.pinValue idx).outcome s.session.world = (.ok (some handle), w'))
    (named : (Exec.pinReference handle).outcome w' = (.ok (some r), w')) :
    Step s ⟨{ s.session with world := w' }, Function.update s.held s.session.current
      (Pinning.gained ⟨s.session.world, []⟩ idx handle.index r :: s.held s.session.current)⟩ := by
  obtain ⟨t, T, hp, -⟩ := (hs.pinning s.session.seen_current).flush.keeps
  exact .happen (.pin done named) (Exec.keepsTo_pinValue hp done)

/-- A value has been pushed and pinned in the binding that is called. -/
def fastened (s : Session) (v : Value) : Session :=
  { s with world := ((Exec.pinValue (-1)).outcome (s.world.pushing v)).2 }

theorem Sound.run_fastened (hs : s.Sound) {v : Value} {handle : PinHandle} {r : Int} {g : Held}
    (hdone : ((Exec.pinValue (-1)).outcome (s.session.world.pushing v)).1 = .ok (some handle))
    (hnamed : ((Exec.pinReference handle).outcome (fastened s.session v).world).1 = .ok (some r))
    (hg : Pinning.gained ⟨s.session.world.pushing v, []⟩ (-1) handle.index r = g) :
    Run s ⟨fastened s.session v,
      Function.update s.held s.session.current (g :: s.held s.session.current)⟩ := by
  have hpushed := (step_push s v).sound hs
  have hsame : ((Exec.pinReference handle).outcome (fastened s.session v).world).2 =
      (fastened s.session v).world := rfl
  have hnamed' := Exec.outcome_eq_of_fst hnamed
  rw [hsame] at hnamed'
  have hpinned := hpushed.step_pin (Exec.outcome_eq_of_fst hdone) hnamed'
  subst hg
  exact .tail (.single (step_push s v)) hpinned

/-- Two bindings to one registry. -/
def pair : List BindingPlan :=
  [{}, {}]

/-- A session with the two bindings, to a registry of actors. -/
@[irreducible]
def twins : Session :=
  match Session.start Session.actors [[.create 1]] pair with
  | .ok s => s
  | .error _ => {}

theorem start_twins : Session.start Session.actors [[.create 1]] pair = .ok twins := by
  have hok : (match Session.start Session.actors [[.create 1]] pair with
    | .ok _ => true
    | .error _ => false) = true := by decide +kernel
  unfold twins
  generalize Session.start Session.actors [[.create 1]] pair = result at hok ⊢
  cases result with
  | ok s => rfl
  | error f => exact absurd hok (by simp)

/-- The first binding has pinned the integer 5, and the second one is called. -/
def lone : Session :=
  (fastened twins (.integer 5)).turn 1

theorem run_lone : twins.current = 0 ∧ lone.current = 1 ∧
    Run ⟨twins, fun _ ↦ []⟩ ⟨lone, Function.update (fun _ ↦ []) 0 [⟨0, 1, .integer 5, true⟩]⟩ := by
  have hfacts : twins.current = 0 ∧ lone.current = 1 ∧
      ((Exec.pinValue (-1)).outcome (twins.world.pushing (.integer 5))).1 = .ok (some ⟨0, 0⟩) ∧
      ((Exec.pinReference ⟨0, 0⟩).outcome (fastened twins (.integer 5)).world).1 = .ok (some 1) ∧
      Pinning.gained ⟨twins.world.pushing (.integer 5), []⟩ (-1) 0 1 =
        ⟨0, 1, .integer 5, true⟩ := by
    decide +kernel
  obtain ⟨hcurrent, hturned, hdone, hnamed, hgained⟩ := hfacts
  have hrun := (sound_start (by decide) (by decide) start_twins).run_fastened hdone hnamed hgained
  dsimp only at hrun
  rw [hcurrent] at hrun
  exact ⟨hcurrent, hturned, hrun.tail (.turn 1)⟩

/-- The handle of the first binding pushes nil in the second one, which has pinned nothing. -/
theorem pushes_of_run_twins : ∃ s h w, Run ⟨twins, fun _ ↦ []⟩ s ∧ h ∈ s.held 0 ∧
    h.value = .integer 5 ∧ s.session.seen 1 = some w ∧
    (Exec.pushPin ⟨0, h.index⟩).outcome w = (.ok (), w.pushing .nil) := by
  obtain ⟨-, hcurrent, hrun⟩ := run_lone
  have hw : lone.seen 1 = some lone.world := hcurrent ▸ lone.seen_current
  have hfacts : (lone.seen 0).isSome = true ∧ (1 : Int) ∉ lone.world.pinTable.released := by
    decide +kernel
  obtain ⟨wa, hwa⟩ := Option.isSome_iff_exists.1 hfacts.1
  have hmem : (⟨0, 1, .integer 5, true⟩ : Held) ∈
      Function.update (fun _ ↦ []) 0 [⟨0, 1, .integer 5, true⟩] 0 := List.mem_cons_self
  refine ⟨_, _, _, hrun, hmem, rfl, hw, ?_⟩
  exact (pushes_of_run (by decide) (by decide) start_twins hrun hwa hmem hw).2
    (fun h' hh' ↦ absurd hh' List.not_mem_nil) hfacts.2

/-- **A handle of one binding pushes what another binding has pinned**: both have pinned a value, and both
values have the reference 1. -/
theorem not_pushes_nil : ∃ s h h' w, Run ⟨twins, fun _ ↦ []⟩ s ∧ h ∈ s.held 0 ∧ h' ∈ s.held 1 ∧
    h.value = .integer 5 ∧ h'.value = .integer 7 ∧ s.session.seen 1 = some w ∧
    (Exec.pushPin ⟨0, h.index⟩).outcome w = (.ok (), w.pushing h'.value) := by
  obtain ⟨-, hcurrent, hrun⟩ := run_lone
  have hs := hrun.sound (sound_start (by decide) (by decide) start_twins)
  have hfacts : ((Exec.pinValue (-1)).outcome (lone.world.pushing (.integer 7))).1 =
        .ok (some ⟨1, 0⟩) ∧
      ((Exec.pinReference ⟨1, 0⟩).outcome (fastened lone (.integer 7)).world).1 = .ok (some 1) ∧
      Pinning.gained ⟨lone.world.pushing (.integer 7), []⟩ (-1) 0 1 = ⟨0, 1, .integer 7, true⟩ ∧
      ((fastened lone (.integer 7)).seen 0).isSome = true := by
    decide +kernel
  obtain ⟨hdone, hnamed, hgained, hthere⟩ := hfacts
  have hrun' := hs.run_fastened hdone hnamed hgained
  dsimp only at hrun'
  rw [hcurrent] at hrun'
  obtain ⟨wa, hwa⟩ := Option.isSome_iff_exists.1 hthere
  have hw : (fastened lone (.integer 7)).seen 1 = some (fastened lone (.integer 7)).world :=
    hcurrent ▸ (fastened lone (.integer 7)).seen_current
  refine ⟨_, ⟨0, 1, .integer 5, true⟩, ⟨0, 1, .integer 7, true⟩, _, hrun.trans hrun', List.mem_cons_self,
    List.mem_cons_self, rfl, rfl, hw, ?_⟩
  exact (hrun'.sound hs).pushes_own hwa List.mem_cons_self hw List.mem_cons_self rfl

end Holding

end ObjectBridge
