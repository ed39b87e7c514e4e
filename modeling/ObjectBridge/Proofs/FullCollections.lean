import ObjectBridge.Proofs.Identity
import ObjectBridge.Proofs.LiveCasts
import ObjectBridge.Proofs.Tidying

/-!
# Full collections of a session

A session is tended (`Session.Tended`) if cycles of the collector are run whole, finalizers included, and
in worlds that are fit for them (`World.Kempt`): userdata carry no finalizer but that of the bridge, and
there is a frame left to call it in. Identity caches stay tidy in such a session, and a full collection
settles (`Session.collectAll_settles`).

Two things have to be taken care of. The finalizer of the bridge looks for the entry of a userdata under
the key that its record has by then, and that is not always the key that the userdata was given to: where
a type becomes weak below the root of its line, a cast moves a userdata from one key to another, and the
entry is left behind (`Session.not_collectAll_tidy`). And the last cycle may take an entry from a table
with weak values that has kept its key alive; so what remains can be reached, but maybe only from such
keys.
-/

namespace ObjectBridge

namespace World

variable {R : Realm} {w w' : World}

/-- What leaves records alone leaves the identity cache tidy. -/
theorem Tidy.aside (htidy : w.Tidy) (ha : w.Aside w') : w'.Tidy := by
  intro k e hf he
  rw [ha.registry] at hf
  rw [ha.cache] at he
  obtain ⟨u, r, hu, hflag, hr, hk⟩ := htidy k e hf he
  obtain ⟨u', hu', hflag'⟩ := ha.flag hu hr
  have hrecord : w'.record? e.userdata = some r :=
    (ha.record? _).trans (Option.bind_eq_some_iff.2 ⟨u, hu, hr⟩)
  obtain ⟨u'', hu'', hr'⟩ := Option.bind_eq_some_iff.1 hrecord
  obtain rfl := Option.some.inj (hu'.symm.trans hu'')
  exact ⟨u', r, hu', hflag'.trans hflag, hr', ha.registry ▸ hk⟩

/-- An identity cache without entries is tidy. -/
theorem tidy_of_empty (h : w.binding.cache = {}) : w.Tidy := by
  intro k e _ he
  rw [h, IdentityCache.find?_empty] at he
  exact absurd he (by simp)

/-- The table of the identity cache of a sound world keeps no userdata alive. -/
theorem Sound.weakCache (hw : w.Sound R) : w.WeakCache := fun t ht ↦ by
  obtain ⟨t', ht', hweak⟩ := hw.binding.cacheTable
  rwa [Option.some.inj (ht.symm.trans ht')]

end World

namespace Exec

/-- **A whole cycle in a world that is fit for it**, the references of pins being released first. -/
theorem ends_collect {w : World} (hw : w.Kempt) (fuel : Nat) :
    Ends (collect (runner fuel)) (fun _ w' ↦ ∃ due lost, (flushed w).Round due lost w')
      (fun _ _ ↦ False) w :=
  (ends_collect_flushed _).1 <| (ends_collect_round (w.retires_flushed.kempt hw) w.drained_flushed
    fuel).imp (fun _ _ ⟨due, lost, _, h⟩ ↦ ⟨due, lost, h⟩) fun _ _ h ↦ h

end Exec

namespace Session

variable {R : Realm} {s s' : Session}

/-- The session after a whole cycle of the collector. -/
def collected (s : Session) (fuel : Nat) : Session :=
  { s with world := ((Exec.collect (Exec.runner fuel)).outcome s.world).2 }

/-- A move is no part of a collection. -/
def Apart : Move → Prop
  | .happen o => ¬ o.Collects
  | _ => True

/-- **A session that is tended**: whatever happens, cycles of the collector are run whole, each in a world
that is fit for it. -/
inductive Tended : Session → Session → Prop
  | refl (s : Session) : Tended s s
  | move {s s' : Session} {m : Move} (run : Tended s s') (allowed : s'.Allows m)
      (apart : Apart m) : Tended s (s'.move m)
  /-- Something happens to userdata without records, or to none. -/
  | aside {s s' : Session} {w : World} (run : Tended s s') (aside : s'.world.Aside w) :
      Tended s { s' with world := w }
  | collect {s s' : Session} (run : Tended s s') (kempt : s'.world.Kempt) (fuel : Nat) :
      Tended s (s'.collected fuel)

/-- The identity caches of all bindings are tidy. -/
def Tidy (s : Session) : Prop :=
  ∀ {k w}, s.seen k = some w → w.Tidy

/-- What one binding does leaves the others in order. -/
theorem Sound.withWorld {K : Set CacheKey} {L : Set Nat} {w' : World} (hs : s.Sound R)
    (hp : s.world.Passes R K L w') : ({ s with world := w' } : Session).Sound R where
  current_lt := hs.current_lt
  seen {k w} hw := by
    rw [seen_withWorld] at hw
    split at hw
    · exact Option.some.inj hw ▸ hp.sound
    · obtain ⟨w₁, hw₁, rfl⟩ := Option.map_eq_some_iff.1 hw
      have hbinding := (hs.seen hw₁).binding
      rw [host_of_seen hw₁] at hbinding
      have helsewhere : World.Leads R ∅ _ _ := hp.elsewhere hbinding
      exact helsewhere.sound

theorem Tidy.withWorld {w' : World} (hs : s.Tidy) (hw' : w'.Tidy) :
    Tidy { s with world := w' } := fun {k w} hw ↦ by
  rw [seen_withWorld] at hw
  split at hw
  · exact Option.some.inj hw ▸ hw'
  · obtain ⟨w₁, hw₁, rfl⟩ := Option.map_eq_some_iff.1 hw
    have htidy : w₁.Tidy := hs hw₁
    exact htidy

/-- **A whole cycle leaves every binding in order, and every identity cache tidy.** -/
theorem Sound.collected (hs : s.Sound R) (htidy : s.Tidy) (hw : s.world.Kempt) (fuel : Nat) :
    (s.collected fuel).Sound R ∧ (s.collected fuel).Tidy := by
  obtain ⟨n, w', houtcome, due, lost, hround⟩ := (Exec.ends_collect hw fuel).exists_ok
  rw [Session.collected, houtcome]
  have hquiet := Exec.quiet_flushed hs.world
  have hflushed := hs.withWorld (World.Leads.quiet (K := ∅) hs.world hquiet).passes (L := ∅)
  obtain ⟨w₁, hpasses, hleads⟩ := hround.passes hflushed.world
  have hswept := hflushed.withWorld hpasses
  refine ⟨hswept.withWorld (L := ∅) hleads.passes, htidy.withWorld (hround.tidy ?_)⟩
  exact (htidy s.seen_current).aside (hquiet.aside hs.world)

/-- **A tended session stays in order, and its identity caches stay tidy.** -/
theorem Tended.sound (h : Tended s s') (hs : s.Sound R) (htidy : s.Tidy) : s'.Sound R ∧ s'.Tidy := by
  induction h with
  | refl => exact ⟨hs, htidy⟩
  | @move s' m run allowed apart ih =>
    obtain ⟨hs', htidy'⟩ := ih
    refine ⟨hs'.after_move allowed, ?_⟩
    cases m with
    | happen o =>
      exact htidy'.withWorld (o.tidy_after hs'.world (htidy' s'.seen_current) allowed apart)
    | pass w =>
      exact htidy'.withWorld ((htidy' s'.seen_current).aside (World.Quiet.aside hs'.world allowed))
    | turn k' =>
      intro k w hw
      obtain ⟨w₁, hw₁, rfl⟩ :=
        Option.map_eq_some_iff.1 ((seen_turn hs'.current_lt k' k).symm.trans hw)
      have htidy : w₁.Tidy := htidy' hw₁
      exact htidy
  | aside _ ha ih =>
    obtain ⟨hs', htidy'⟩ := ih
    exact ⟨hs'.withWorld (World.Leads.aside (K := ∅) hs'.world ha).passes (L := ∅),
      htidy'.withWorld ((htidy' (seen_current _)).aside ha)⟩
  | collect _ kempt fuel ih =>
    obtain ⟨hs', htidy'⟩ := ih
    exact hs'.collected htidy' kempt fuel

/-- **A full collection settles.** Start a session with any number of bindings, and let anything happen to
it, where cycles of the collector are run whole and in worlds that are fit for them. In such a world a
full collection ends. Afterwards all userdata that are left can be reached, if not from the roots then
from keys that have gone with their entries of tables with weak values, and the entries of the identity
cache are those of such userdata, as far as keys are faithful. What could not be reached is gone; what can
be reached is not, nor what could be reached without such keys; and what the userdata that are gone owned
has been destroyed, each payload once, and no other payload. -/
theorem collectAll_settles {c : Catalogue} {registries : List (List PlanStep)}
    {plans : List BindingPlan} (hne : plans ≠ [])
    (hplans : ∀ p ∈ plans, p.registry < registries.length) {s₀ : Session}
    (hstart : start c registries plans = .ok s₀) (before : Tended s₀ s) (hw : s.world.Kempt)
    (fuel : Nat) {rounds : Nat} (hrounds : s.world.unfinalized.length < rounds) :
    Exec.Ends (Exec.collectAll (Exec.runner fuel) rounds) (fun _ w' ↦
      (∀ {id}, w'.Live id → w'.ReachesSince (Exec.flushed s.world) (.userdata id)) ∧
      (∀ {k e}, k.Faithful s.world.binding.registry → w'.binding.cache.find? k = some e →
        w'.Live e.userdata ∧ w'.Bears k e.userdata) ∧
      (∀ id ∈ (Exec.flushed s.world).unreached, ¬ w'.Live id) ∧
      (∀ {id}, s.world.Live id → id ∉ w'.unreached ∨ (Exec.flushed s.world).binding.machine.heap.Firm
        (Exec.flushed s.world).binding.machine.roots (.userdata id) → w'.Live id) ∧
      ∃ gone : List Nat, gone.Nodup ∧ (∀ id, id ∈ gone ↔ s.world.Live id ∧ ¬ w'.Live id) ∧
        w'.host = s.world.hostWithout (gone.filterMap s.world.payload?))
      (fun _ _ ↦ False) s.world := by
  obtain ⟨hs, htidy⟩ := before.sound (sound_start hne hplans hstart)
    fun hw ↦ World.tidy_of_empty (blank_start hne hplans hstart hw).cache
  have haside := (Exec.quiet_flushed hs.world).aside hs.world
  have hweak := (World.Leads.aside (K := ∅) hs.world haside).sound.weakCache
  have hlive (id : Nat) : (Exec.flushed s.world).Live id ↔ s.world.Live id := by
    rw [World.Live, World.Live, (Exec.quiet_flushed hs.world).userdata]
  have hpayload : (Exec.flushed s.world).payload? = s.world.payload? := funext fun id ↦ by
    rw [World.payload?, haside.record?, World.payload?]
  refine (Exec.ends_collectAll hw fuel hrounds).imp (fun _ w' h ↦ ?_) fun _ _ h ↦ h
  refine ⟨h.reached, fun {k e} hf he ↦ ?_, fun id hid ↦ h.lost hid, fun {id} hid hr ↦ ?_, ?_⟩
  · have hbears : w'.Bears k e.userdata :=
      h.tidy ((htidy s.seen_current).aside haside) k e (by rwa [h.registry]) he
    exact ⟨(SlotStore.live_iff _).2 ⟨_, hbears.choose_spec.choose_spec.1⟩, hbears⟩
  · refine h.kept ((hlive id).2 hid) (hr.elim not_not.1 fun hfirm ↦ ?_)
    exact (h.firm hweak hfirm).rooted
  · obtain ⟨gone, hnodup, hgone, hhost⟩ := h.host
    refine ⟨gone, hnodup, fun id ↦ by rw [hgone, hlive], ?_⟩
    rw [hhost, hpayload]
    rfl

/-- A figure that belongs to its userdata is pushed, and taken off the stack again. A full collection
leaves no userdata that cannot be reached, and no entry of one. -/
theorem collectAll_settles_figure : ∃ (s : Session) (n : Nat) (w' : World), Tended stage s ∧
    (Exec.collectAll (Exec.runner 1) 2).outcome s.world = (.ok n, w') ∧
      (∀ {id}, w'.Live id → w'.ReachesSince (Exec.flushed s.world) (.userdata id)) ∧
      ∀ {k e}, k.Faithful s.world.binding.registry → w'.binding.cache.find? k = some e →
        w'.Live e.userdata := by
  let s₁ := stage.move (.happen (.pushOwned 0 0x1000))
  let s₂ := s₁.move (.pass { s₁.world with binding.machine := s₁.world.binding.machine.setTop 0 })
  have hpush : stage.Allows (.happen (.pushOwned 0 0x1000)) := trivial
  have before : Tended stage s₂ :=
    .move (.move (.refl _) hpush not_false) (World.Quiet.of_heap rfl rfl) trivial
  have hfacts : s₂.world.LooksKempt ∧ s₂.world.unfinalized.length < 2 := by decide +kernel
  obtain ⟨hkempt, hrounds⟩ := hfacts.imp_left World.LooksKempt.kempt
  obtain ⟨n, w', houtcome, hreached, hentries, -⟩ :=
    (collectAll_settles (by decide) (by decide) start_actors before hkempt 1 hrounds).exists_ok
  exact ⟨s₂, n, w', before, houtcome, hreached, fun hf he ↦ (hentries hf he).1⟩

/-- A machine with a table with weak values on its stack, and nothing else. The table has one entry, of
which the key is a userdata, and nothing else keeps the value alive. -/
def keyed (m : Machine) (id : Nat) : Machine :=
  let (weak, m) := m.createTable
  let (lost, m) := m.createTable
  { m with
    heap := m.heap.modifyTable weak fun t ↦
      { t.set (.userdata id) (.table lost) with weakValues := true }
    stack := #[.table weak] }

theorem get?_keyed {m : Machine} (hm : m.heap.tables.Sound) {i : Nat} {t : Table}
    (ht : m.heap.tables.get? i = some t) (id : Nat) : (keyed m id).heap.tables.get? i = some t := by
  have hne {s : SlotStore Table} (hs : s.Sound) (hi : s.get? i = some t) : i ≠ s.nextId := by
    rintro rfl
    exact absurd (hs.get?_nextId.symm.trans hi) (by simp)
  have hfirst : (m.heap.tables.insert {}).get? i = some t := by
    rw [hm.get?_insert, if_neg (hne hm ht), ht]
  show (((m.heap.tables.insert {}).insert {}).modify m.heap.tables.nextId _).get? i = some t
  rw [SlotStore.get?_modify, if_neg (hne hm ht).symm, (hm.insert {}).get?_insert,
    if_neg (hne (hm.insert {}) hfirst), hfirst]

/-- **A full collection may leave something to finalize**: the userdata of a figure is the key of an entry
in a table with weak values, and the value of the entry is lost. The entry goes in the last cycle, which
is the first one as well, and only the next full collection takes the userdata. -/
theorem not_collectAll_reaches : ∃ (s : Session) (w' : World), Tended stage s ∧ s.world.Kempt ∧
    (Exec.collectAll (Exec.runner 1) 2).outcome s.world = (.ok 0, w') ∧ w'.Live 0 ∧
      ((Exec.collectAll (Exec.runner 1) 3).outcome w').1 = .ok 1 := by
  let s₁ := stage.move (.happen (.pushOwned 0 0x1000))
  let s₂ := s₁.move (.pass { s₁.world with
    binding.machine := keyed s₁.world.binding.machine 0 })
  let w' := ((Exec.collectAll (Exec.runner 1) 2).outcome s₂.world).2
  have hpush : stage.Allows (.happen (.pushOwned 0 0x1000)) := trivial
  have hfacts : (s₁.world.binding.machine.heap.tables.Sound ∧
      s₁.world.binding.machine.heap.tables.live s₁.world.binding.machine.registry ∧
      s₁.world.binding.machine.heap.tables.live s₁.world.binding.tables.cache) ∧
      s₂.world.LooksKempt ∧
      ((Exec.collectAll (Exec.runner 1) 2).outcome s₂.world).1 = .ok 0 ∧
      w'.Live 0 ∧
      ((Exec.collectAll (Exec.runner 1) 3).outcome w').1 = .ok 1 := by
    decide +kernel
  obtain ⟨⟨htables, hregistry, hcache⟩, hkempt, hok, hlive, hnext⟩ := hfacts
  have hpass : s₁.world.Quiet { s₁.world with
      binding.machine := keyed s₁.world.binding.machine 0 } := by
    have hthere {i : Nat} (hi : s₁.world.binding.machine.heap.tables.live i = true) :
        (keyed s₁.world.binding.machine 0).heap.tables.get? i =
          s₁.world.binding.machine.heap.tables.get? i := by
      obtain ⟨t, ht⟩ := (SlotStore.live_iff _).1 hi
      rw [get?_keyed htables ht, ht]
    exact ⟨⟨fun _ ↦ rfl, rfl⟩, rfl, rfl, rfl, rfl, rfl, rfl, rfl, hthere hregistry, hthere hcache⟩
  exact ⟨s₂, w', .move (.move (.refl _) hpush not_false) hpass trivial, hkempt.kempt,
    Exec.outcome_eq_of_fst hok, hlive, hnext⟩

/-- A type that is not weak, and a weak type derived from it. -/
def haunt : Catalogue where
  types := #[{ name := "Body", size := 16 },
    { name := "Ghost", size := 24, base := some ⟨0, 0⟩, anchor := some 16 }]
  bases_first := by decide

/-- A session with a binding to a registry of ghosts, which packs no words. -/
@[irreducible]
def crypt : Session :=
  match start haunt [[.create 1]] [{ settings := { lightUserdata := false } }] with
  | .ok s => s
  | .error _ => {}

theorem start_haunt :
    start haunt [[.create 1]] [{ settings := { lightUserdata := false } }] = .ok crypt := by
  have hok : (match start haunt [[.create 1]] [{ settings := { lightUserdata := false } }] with
    | .ok _ => true
    | .error _ => false) = true := by decide +kernel
  rw [crypt]
  cases h : start haunt [[.create 1]] [{ settings := { lightUserdata := false } }] with
  | ok s => rfl
  | error f => simp [h] at hok

/-- **Not every entry is that of a userdata that is left**: a ghost is shown as a body, and cast to a
ghost; then it is dropped, and a full collection takes its userdata. The entry is still there. -/
theorem not_collectAll_tidy : ∃ (s₀ s : Session) (n : Nat) (w' : World) (k : CacheKey) (e : CacheEntry),
    start haunt [[.create 1]] [{ settings := { lightUserdata := false } }] = .ok s₀ ∧ Tended s₀ s ∧
      s.world.Kempt ∧ s.world.unfinalized.length < 3 ∧
      (Exec.collectAll (Exec.runner 1) 3).outcome s.world = (.ok n, w') ∧
      w'.binding.cache.find? k = some e ∧ ¬ w'.Live e.userdata := by
  let s₁ := crypt.move (.happen (.pushPointer (some 0x1000) 0))
  let s₂ := s₁.move (.happen (.cast (-1) 1))
  let s₃ := s₂.move (.pass { s₂.world with
    binding.machine := s₂.world.binding.machine.setTop 0 })
  let w' := ((Exec.collectAll (Exec.runner 1) 3).outcome s₃.world).2
  have hfacts : (crypt.world.binding.registry.idOf? 0 = some 0 ∧
      crypt.world.singleInSlots ⟨0x1000, 0⟩) ∧
      (s₁.world.resolve (s₁.world.binding.machine.valueAt (-1)) = .live ⟨0x1000, 0⟩ ∧
        s₁.world.binding.registry.toDerived? s₁.world.host.memory ⟨0x1000, 0⟩ 1 = some 0x1000 ∧
        s₁.world.singleInSlots ⟨0x1000, 1⟩) ∧
      (s₃.world.LooksKempt ∧ s₃.world.unfinalized.length < 3) ∧
      ((Exec.collectAll (Exec.runner 1) 3).outcome s₃.world).1 = .ok 1 ∧
      w'.binding.cache.find? (.borrowed 0x1000) = some ⟨1, 0⟩ ∧
      ¬ w'.Live 0 := by
    decide +kernel
  obtain ⟨⟨hexported, hsingle⟩, ⟨hshown, hdown, hsingle₁⟩, ⟨hkempt, hrounds⟩, hok, hentry, hgone⟩ :=
    hfacts
  have hpush := allowed_push (a := 0x1000) hexported (World.single_of_slots hsingle)
  have hcast : (Event.cast (-1) 1).Allowed s₁.world :=
    allowed_cast hshown hdown (World.single_of_slots hsingle₁)
  have hpass : s₂.Allows (.pass { s₂.world with
      binding.machine := s₂.world.binding.machine.setTop 0 }) := World.Quiet.of_heap rfl rfl
  have htended : Tended crypt s₃ :=
    .move (.move (.move (.refl _) hpush not_false) hcast not_false) hpass trivial
  exact ⟨crypt, s₃, 1, w', .borrowed 0x1000, ⟨1, 0⟩, start_haunt, htended, hkempt.kempt, hrounds,
    Exec.outcome_eq_of_fst hok, hentry, hgone⟩

end Session

end ObjectBridge
