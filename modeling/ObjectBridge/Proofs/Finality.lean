import ObjectBridge.Proofs.FullCollections
import ObjectBridge.Proofs.Payloads
import ObjectBridge.Proofs.Resting

/-!
# What has been discarded stays discarded

A userdata is discarded when another object takes its place, or when it is finalized. From then on it is
spent, whatever is asked of the bridge, as long as it is there: its record stays the same, and leads to
no object, no container and no share. To finalize it again destroys nothing, and takes no entry of the
identity cache from another userdata (`Session.discarded_for_good`).

A userdata is told by its number, and a number that has become free may be given to a new one. So this is
about userdata that are there all along.
-/

namespace ObjectBridge

namespace World

variable {R : Realm} {w w₁ w' : World} {id : Nat} {r : Record} {o : Event}

/-- **A userdata that is spent**: it leads to no object, it is no container, and no share can be had from
it. -/
structure Spent (w : World) (id : Nat) : Prop where
  resolve : ∀ v, w.resolve (.userdata id) ≠ .live v
  container? : w.container? (.userdata id) = none
  share : ∀ (s : Sharing) (idx : Int) (t : TypeKey), w.binding.machine.valueAt idx = .userdata id →
    Exec.Ends (Exec.loadShare s idx t) (fun _ _ ↦ False) (fun i w' ↦ (∃ f, i = .failure f) ∧ w' = w) w

theorem spent_of_discarded (hid : w.record? id = some r) (hd : r.discarded = true) : w.Spent id := by
  have hmachine : w.binding.machine.record? id = some r := hid
  have htarget := Record.discarded_iff.1 hd
  refine ⟨fun v hv ↦ ?_, ?_, fun s idx t hidx ↦ ?_⟩
  · obtain ⟨r', hr', -, hne⟩ := exposed_of_resolve hv
    rw [← Option.some.inj (hid.symm.trans hr')] at hne
    exact hne htarget
  · simp only [container?, Value.userdata?, Option.bind_some, hmachine, htarget]
    cases r.exposed <;> rfl
  · simp only [Exec.loadShare, Exec.ends_bind, Exec.ends_get, hidx, Value.userdata?,
      Option.bind_eq_bind, Option.bind_some, hmachine, hd, or_true, if_true]
    simp [Exec.mismatch, Exec.typeKeyName]

/-! ### Finalizing once more -/

/-- What a finalizer leaves that finds nothing to do: host and records are as before, and so is what is
told of other userdata. -/
structure Relinquishes (w : World) (id : Nat) (w' : World) : Prop where
  host : w'.host = w.host
  record? : ∀ id', w'.record? id' = w.record? id'
  entry : ∀ {k e}, e.userdata ≠ id →
    (w'.binding.cache.find? k = some e ↔ w.binding.cache.find? k = some e)
  remembers : ∀ {k id'}, id' ≠ id → (w'.Remembers k id' ↔ w.Remembers k id')

theorem Quiet.relinquishes (hq : w.Quiet w') (hhost : w'.host = w.host) : w.Relinquishes id w' where
  host := hhost
  record? := hq.record?
  entry _ := by rw [hq.cache]
  remembers _ := hq.remembers

theorem Relinquishes.trans (h : w.Relinquishes id w₁) (h' : w₁.Relinquishes id w') :
    w.Relinquishes id w' where
  host := h'.host.trans h.host
  record? id' := (h'.record? id').trans (h.record? id')
  entry he := (h'.entry he).trans (h.entry he)
  remembers hid := (h'.remembers hid).trans (h.remembers hid)

theorem Restacked.relinquishes (h : w.Restacked w') : w.Relinquishes id w' := by
  obtain ⟨stack, frames, rfl⟩ := h
  exact Quiet.relinquishes (Quiet.of_heap rfl rfl) rfl

/-- **The finalizer of the bridge finds nothing to do** in a record that has been discarded and owns
nothing. -/
theorem relinquishes_finalized (hw : w.Sound R) (hid : w.record? id = some r) (hd : r.discarded = true)
    (hp : r.payload = none) : w.Relinquishes id (w.finalized id) := by
  have hsame : { r.discard with payload := none } = r := Record.discard_eq hd hp
  rw [finalized, hid]
  have hrecord {m : World} (hm : m.record? id = some r) (id' : Nat) :
      (m.binding.machine.modifyRecord id fun r ↦ { r.discard with payload := none }).record? id' =
        m.record? id' := by
    rw [record?_modifyRecord hm, hsame]
    split
    · rename_i heq
      rw [heq, hm]
    · rfl
  have hhost : w.hostWithout r.payload.toList = w.host := by
    rw [hp]
    rfl
  simp only [finalizing, hhost]
  cases he : w.binding.cache.entryOf (r.cacheKey w.binding.registry) id with
  | none => exact ⟨rfl, hrecord hid, fun _ ↦ Iff.rfl, fun _ ↦ Iff.rfl⟩
  | some e =>
    obtain ⟨hfind, huserdata⟩ := (w.binding.cache.entryOf_eq_some).1 he
    refine ⟨rfl, hrecord (m := w.forgetting _ e) hid, fun {k e'} hne ↦ ?_, fun {k id'} hne ↦ ?_⟩
    · refine (IdentityCache.find?_erase_eq_some _).trans ⟨fun h ↦ h.2, fun h ↦ ⟨?_, h⟩⟩
      rintro rfl
      exact hne (Option.some.inj (h.symm.trans hfind) ▸ huserdata)
    · refine (hw.remembers_forgetting hfind).trans ⟨fun h ↦ h.2, fun h ↦ ⟨?_, h⟩⟩
      rintro rfl
      obtain ⟨e', he', rfl, -⟩ := h
      exact hne (Option.some.inj (he'.symm.trans hfind) ▸ huserdata)

/-- The events that finalize a userdata: a script calls the finalizer of the bridge with it, or the
collector gives it its turn. -/
inductive Finalizes (w : World) (id : Nat) : Event → Prop
  | script (h : w.binding.machine.valueAt 1 = .userdata id) : Finalizes w id .finalize
  | collector (framed : w.Framed) (fuel : Nat) : Finalizes w id (.runFinalizer fuel id)

end World

namespace Exec

variable {w : World} {id : Nat}

/-- **The turn of a userdata with the finalizer of the bridge**: the userdata is taken apart, or there is
no frame left to call the finalizer in. -/
theorem ends_runFinalizer_or_refused (hw : w.Framed)
    (hbridge : w.finalizer id ≠ .nil →
      w.binding.machine.callable? (w.finalizer id) = some (.builtin .finalize)) (fuel : Nat) :
    Ends (runFinalizer (runner fuel) id)
      (fun _ w' ↦ w' = w ∨ (flushed w).Restacked w' ∨ ((flushed w).finalized id).Restacked w')
      (fun _ _ ↦ False) w := by
  by_cases hnil : (w.finalizer id).isNil = true
  · exact ends_runFinalizer_of_isNil hnil _ (Or.inl rfl)
  have hf := hbridge fun h ↦ hnil (by rw [h]; rfl)
  by_cases hdepth : w.binding.machine.frames.length < w.binding.settings.maxDepth
  · exact (ends_runFinalizer_of_call hnil (ends_tryCall_finalize id hw hf hdepth fuel)).imp
      (fun _ _ h ↦ Or.inr (Or.inr h)) fun _ _ h ↦ h
  · exact (ends_runFinalizer_of_call hnil (ends_tryCall_refused id hw
      (fun _ _ h ↦ hdepth h.depth_lt) (runner fuel))).imp (fun _ _ h ↦ Or.inr (Or.inl h)) fun _ _ h ↦ h

end Exec

namespace World

variable {R : Realm} {w : World} {id : Nat} {r : Record} {o : Event}

/-- **To finalize a userdata again** takes nothing from others. -/
theorem Finalizes.relinquishes (h : w.Finalizes id o) (hw : w.Sound R) (ho : o.Allowed w)
    (hid : w.record? id = some r) (hd : r.discarded = true) (hp : r.payload = none) :
    w.Relinquishes id (o.after w) := by
  have hrefl : w.Relinquishes id w := (Restacked.refl w).relinquishes
  have hends : Exec.Ends o.perform (fun _ w' ↦ w.Relinquishes id w') (fun _ w' ↦ w.Relinquishes id w')
      w := by
    cases h with
    | script h =>
      rw [Event.perform, Exec.ends_bind]
      refine (Exec.ends_finalize_eq h).imp (fun _ w' h ↦ ?_) fun _ _ h ↦ h.elim
      rw [h.2]
      exact relinquishes_finalized hw hid hd hp
    | collector framed fuel =>
      have hq := Exec.quiet_flushed hw
      have hflushed : w.Relinquishes id (Exec.flushed w) := hq.relinquishes rfl
      have hsound := (Leads.quiet (K := ∅) hw hq).sound
      refine (Exec.ends_runFinalizer_or_refused framed ho fuel).imp (fun _ w' h ↦ ?_) fun _ _ h ↦ h.elim
      rcases h with rfl | h | h
      · exact hrefl
      · exact hflushed.trans h.relinquishes
      · have hagain := relinquishes_finalized hsound ((hq.record? id).trans hid) hd hp
        exact (hflushed.trans hagain).trans h.relinquishes
  exact hends.world

end World

namespace Session

variable {R : Realm} {C : Session → Move → Prop} {s s' : Session} {m : Move} {k id : Nat} {w : World}
  {r : Record}

/-! ### Sessions -/

/-- What has been discarded is at rest in all bindings. -/
structure AtRest (s : Session) : Prop where
  seen : ∀ {k w}, s.seen k = some w → w.AtRest

/-- **What one move makes of the world of a binding respects what has been discarded.** -/
theorem AtRest.respects (ha : s.AtRest) (hs : s.Sound R) (hm : s.Allows m) {w' : World}
    (hw' : (s.move m).seen k = some w') : ∃ w, s.seen k = some w ∧ w.Respects w' := by
  have hchange {w₁ : World} (hw₁ : ({ s with world := w₁ } : Session).seen k = some w')
      (hrespects : s.world.Respects w₁) : ∃ w, s.seen k = some w ∧ w.Respects w' := by
    rw [seen_withWorld] at hw₁
    split at hw₁
    · rename_i hk
      obtain rfl := Option.some.inj hw₁
      exact ⟨s.world, hk ▸ s.seen_current, hrespects⟩
    · obtain ⟨w, hw, rfl⟩ := Option.map_eq_some_iff.1 hw₁
      exact ⟨w, hw, (ha.seen hw).respects rfl⟩
  cases m with
  | happen o => exact hchange hw' (o.respects hs.world (ha.seen s.seen_current) hm)
  | pass w₁ =>
    exact hchange hw' (World.Undisturbed.quiet hs.world (ha.seen s.seen_current) hm).respects
  | turn k' =>
    obtain ⟨w, hw, rfl⟩ := Option.map_eq_some_iff.1 ((seen_turn hs.current_lt k' k).symm.trans hw')
    exact ⟨w, hw, (ha.seen hw).respects rfl⟩

theorem AtRest.move (ha : s.AtRest) (hs : s.Sound R) (hm : s.Allows m) : (s.move m).AtRest :=
  ⟨fun hw' ↦ by
    obtain ⟨w, -, hrespects⟩ := ha.respects hs hm hw'
    exact hrespects.atRest⟩

/-- **What has been discarded is at rest along a run.** -/
theorem Run.atRest (hr : Run C s s') (hs : s.Sound R) (ha : s.AtRest) : s'.AtRest := by
  induction hr with
  | refl => exact ha
  | step run allowed _ ih => exact ih.move (run.sound hs) allowed

/-- The userdata of a number is still there after a move. -/
def Retains (k id : Nat) (s : Session) (m : Move) : Prop :=
  ∀ {w}, (s.move m).seen k = some w → w.Live id

/-- **A record that has been discarded stays the same along a run**, as long as its userdata is there. -/
theorem Run.keeps_discarded (hr : Run (Retains k id) s s') (hs : s.Sound R) (ha : s.AtRest)
    (hw : s.seen k = some w) (hid : w.record? id = some r) (hd : r.discarded = true) :
    ∃ w', s'.seen k = some w' ∧ w'.record? id = some r := by
  induction hr with
  | refl => exact ⟨w, hw, hid⟩
  | step run allowed retains ih =>
    obtain ⟨w₁, hw₁, hid₁⟩ := ih
    have hs₁ := run.sound hs
    obtain ⟨w', hw', hp⟩ := hs₁.move allowed hw₁
    obtain ⟨r', hr', -⟩ := hp.ages hid₁ (retains hw')
    obtain ⟨w₂, hw₂, hrespects⟩ := (run.atRest hs ha).respects hs₁ allowed hw'
    obtain rfl := Option.some.inj (hw₁.symm.trans hw₂)
    rw [hrespects.kept hid₁ hd hr'] at hr'
    exact ⟨w', hw', hr'⟩

/-- **What has been discarded is discarded for good.** Start a session with any number of bindings, and
let anything happen to it. Once a userdata of a binding has been discarded, its record stays the same as
long as the userdata is there, whatever else happens, and the userdata is spent. To finalize it again, by
a script or in the collector, destroys nothing, and takes no entry of the identity cache from another
userdata. -/
theorem discarded_for_good {c : Catalogue} {registries : List (List PlanStep)}
    {plans : List BindingPlan} (hne : plans ≠ [])
    (hplans : ∀ p ∈ plans, p.registry < registries.length) {s₀ : Session}
    (hstart : start c registries plans = .ok s₀) (before : Run (fun _ _ ↦ True) s₀ s)
    (hw : s.seen k = some w) (hid : w.record? id = some r) (hd : r.discarded = true)
    (after : Run (Retains k id) s s') :
    ∃ w', s'.seen k = some w' ∧ w'.record? id = some r ∧ w'.Spent id ∧
      ∀ {o}, w'.Finalizes id o → o.Allowed w' → w'.Relinquishes id (o.after w') := by
  have hs₀ := sound_start hne hplans hstart
  have hs := before.sound hs₀
  have ha : s.AtRest := before.atRest hs₀ ⟨fun hw ↦ (blank_start hne hplans hstart hw).atRest⟩
  obtain ⟨w', hw', hid'⟩ := after.keeps_discarded hs ha hw hid hd
  refine ⟨w', hw', hid', World.spent_of_discarded hid' hd, fun hfinalizes ho ↦ ?_⟩
  exact hfinalizes.relinquishes ((after.sound hs).seen hw') ho hid' hd
    (((after.atRest hs ha).seen hw').spent hid' hd)

/-- A ghost is shown as a body and cast to a ghost, and then a script finalizes its userdata, which the
identity cache still has for the body. -/
def exorcised : Session :=
  ((crypt.move (.happen (.pushPointer (some 0x1000) 0))).move (.happen (.cast (-1) 1))).move
    (.happen .finalize)

/-- The body is pushed again, and a cycle of the collector is run: the userdata of the ghost is spent, and
a script that finalizes it once more takes nothing from others. -/
theorem discarded_for_good_ghost :
    let w := ((exorcised.move (.happen (.pushPointer (some 0x1000) 0))).move (.happen .sweep)).world
    w.Spent 0 ∧ w.Relinquishes 0 (Event.finalize.after w) := by
  let s₁ := crypt.move (.happen (.pushPointer (some 0x1000) 0))
  let s₂ := s₁.move (.happen (.cast (-1) 1))
  let s₄ := exorcised.move (.happen (.pushPointer (some 0x1000) 0))
  let s₅ := s₄.move (.happen .sweep)
  have hfacts : (crypt.world.binding.registry.idOf? 0 = some 0 ∧
      crypt.world.singleInSlots ⟨0x1000, 0⟩) ∧
      (s₁.world.resolve (s₁.world.binding.machine.valueAt (-1)) = .live ⟨0x1000, 0⟩ ∧
        s₁.world.binding.registry.toDerived? s₁.world.host.memory ⟨0x1000, 0⟩ 1 = some 0x1000 ∧
        s₁.world.singleInSlots ⟨0x1000, 1⟩) ∧
      ((exorcised.world.record? 0).map (·.discarded) = some true ∧
        exorcised.world.binding.registry.idOf? 0 = some 0 ∧
        exorcised.world.singleInSlots ⟨0x1000, 0⟩) ∧
      (s₄.current = exorcised.current ∧ s₅.current = exorcised.current) ∧
      s₄.world.Live 0 ∧ s₅.world.Live 0 ∧ s₅.world.binding.machine.valueAt 1 = .userdata 0 := by
    decide +kernel
  obtain ⟨⟨hexported, hsingle⟩, ⟨hshown, hdown, hsingle₁⟩, ⟨hdiscarded, hexported₃, hsingle₃⟩,
    ⟨hcurrent₄, hcurrent₅⟩, hlive₄, hlive₅, hself⟩ := hfacts
  have hpush := allowed_push (a := 0x1000) hexported (World.single_of_slots hsingle)
  have hcast : (Event.cast (-1) 1).Allowed s₁.world :=
    allowed_cast hshown hdown (World.single_of_slots hsingle₁)
  have hagain := allowed_push (a := 0x1000) hexported₃ (World.single_of_slots hsingle₃)
  have before : Run (fun _ _ ↦ True) crypt exorcised :=
    .step (.step (.step (.refl _) hpush trivial) hcast trivial) trivial trivial
  have hretains {s : Session} (hs : s.current = exorcised.current) (hlive : s.world.Live 0) {w : World}
      (hw : s.seen exorcised.current = some w) : w.Live 0 := by
    rw [← hs, seen_current] at hw
    exact Option.some.inj hw ▸ hlive
  have after : Run (Retains exorcised.current 0) exorcised s₅ :=
    .step (.step (.refl _) hagain (hretains hcurrent₄ hlive₄)) trivial (hretains hcurrent₅ hlive₅)
  obtain ⟨r, hr, hd⟩ := Option.map_eq_some_iff.1 hdiscarded
  obtain ⟨w', hw', -, hspent, hrelinquishes⟩ := discarded_for_good (by decide) (by decide) start_haunt
    before exorcised.seen_current hr hd after
  rw [← hcurrent₅, seen_current] at hw'
  obtain rfl := Option.some.inj hw'
  exact ⟨hspent, hrelinquishes (.script hself) trivial⟩

end Session

end ObjectBridge
