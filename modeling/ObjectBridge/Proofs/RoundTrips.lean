import ObjectBridge.Proofs.Payloads
import ObjectBridge.Proofs.Reached

/-!
# Objects make round trips

All along a session, a push of an object that does not fail leaves one value more on the stack.
Loading that value as the pushed type yields the pushed address or nothing, and it yields the
address exactly if nothing obscured the object when it was pushed (`Session.pushed_loads`;
`World.Obscured` lists what can obscure an object). Where types become weak at the roots of their
lines only, that is only an owner for an object that is not weak (`World.not_obscured`).

A weak object can be obscured by a cast. The slot of such an object records the most derived type
under which it has been seen, and while a borrowed object that is pushed as something else is given
a new userdata, a slot is never told that it was wrong (`Session.not_pushed_loads`).
-/

namespace ObjectBridge

namespace World

variable {R : Realm} {w : World} {v : View}

/-- **Where types become weak at the roots only, nothing but an owner obscures an object that is not
weak.** -/
theorem not_obscured (hw : w.Sound R) (hroots : w.binding.registry.WeakAtRoots)
    (hweak : w.binding.registry.isWeak v.type = false)
    (hunowned : ∀ id, ¬ w.Remembers (.owned (w.rootOf v)) id) : ¬ w.Obscured v := by
  rw [not_obscured_strong hweak hunowned]
  intro _ id r shown hm hr he hbase
  obtain ⟨r', hr', hfits⟩ := hw.shelf.recorded hm
  obtain rfl := Option.some.inj (hr.symm.trans hr')
  cases ht : r.target with
  | pointer a => exact ⟨_, resolve_of_pointer hr he ht⟩
  | weak h =>
    obtain ⟨type, he', htype⟩ := (hw.binding.proper hr).exposes ht
    obtain rfl := Exposed.declared.inj (he.symm.trans he')
    have hsame := hw.registrySound.isWeak_eq_of_isBaseOf hroots hbase
    exact absurd (htype.symm.trans (hsame.trans hweak)) (by simp)
  | discarded => exact absurd (Record.discarded_iff.2 ht) (by simp [(hfits hroots).not_discarded])

/-- Whether the slots say that an anchor is of one object alone. -/
def singleInSlots (w : World) (v : View) : Bool :=
  w.weakTable.slots.all fun s ↦ s.view.all fun u ↦
    decide (w.binding.registry.anchorCell? u = w.binding.registry.anchorCell? v →
      w.binding.registry.root u = w.binding.registry.root v)

theorem single_of_slots (h : w.singleInSlots v = true) : w.Single v := by
  intro i n u hu hanchor
  obtain ⟨hlt, hslot⟩ := Array.getElem?_eq_some_iff.1 (show w.weakTable.slots[i]? = _ from hu)
  have hall := Array.all_eq_true.1 h i hlt
  rw [hslot, Option.all_some] at hall
  exact of_decide_eq_true hall hanchor

end World

/-- What has been pushed is at the end of the frame. -/
theorem Machine.valueAt_of_push {m m' : Machine} {x : Value} (hm : m.base ≤ m.stack.size)
    (hbase : m'.base = m.base) (hstack : m'.stack = m.stack.push x) : m'.valueAt (-1) = x := by
  have hback : ((1 : Int).toNat) = 1 := rfl
  have hsize : m'.stack.size = m.stack.size + 1 := by rw [hstack, Array.size_push]
  have hposition : m'.position? (-1) = some m.stack.size := by
    simp only [position?, hsize, hbase]
    rw [if_neg (by omega), if_pos (by omega), if_pos (by omega)]
    exact congrArg some (by omega)
  simp only [valueAt, hposition, hstack, Array.getElem?_push_size, Option.getD_some]

namespace Event

/-- Whatever happens keeps to its frame. -/
theorem disciplined_perform (o : Event) : Exec.Disciplined o.perform := by
  show Exec.framing.Governs o.perform
  cases o with
  | pushPointer a t => exact Exec.governs_pushPointer a t
  | pushOwned t a => exact Exec.governs_pushOwned t a
  | pushShare block => exact (Exec.governs_pushShare block).bind fun _ ↦ .pure _
  | pushContainer kind a => exact Exec.governs_pushContainer kind a
  | pushOwnedContainer kind a => exact Exec.governs_pushOwnedContainer kind a
  | cast idx target => exact Exec.governs_cast idx target
  | finalize => exact Exec.governs_finalize.bind fun _ ↦ .pure _
  | sweep => exact Exec.framing.sweep.bind fun _ ↦ .pure _
  | runFinalizer fuel id => exact Exec.governs_runFinalizer (Exec.disciplined_runner fuel) id
  | detach cell => exact Exec.governs_modifyHost (·.detach cell)
  | destroy t a => exact Exec.governs_modifyHost (·.destroy t a)
  | dropOwner block => exact Exec.governs_modifyHost (·.dropOwner block)

end Event

namespace Exec

variable {R : Realm} {X : Set Nat} {w : World}

/-- **Pushing a pointer delivers its object**, if it does not fail. -/
theorem ends_pushPointer_delivers (hw : w.Sound R) (ha : w.Accurate X) {a : Address} {t : TypeKey}
    {type : Nat} (htype : w.binding.registry.idOf? t = some type)
    (hsingle : w.binding.registry.isWeak type = true → w.Single ⟨a, type⟩) :
    Ends (pushPointer (some a) t) (fun _ w' ↦ w.Delivers ⟨a, type⟩ w') (fun _ _ ↦ True) w := by
  simp only [pushPointer, exportedType, ends_bind, ends_registry, htype, ends_pure]
  exact (ends_pushView_delivers hw ha hsingle).imp (fun _ _ h ↦ h.2) fun _ _ _ ↦ trivial

end Exec

namespace Session

variable {C : Session → Move → Prop} {s s' : Session} {m : Move}

/-- What happens besides the bridge leaves the frames of the binding that is called in order. -/
def KeepsFrames (_ : Session) : Move → Prop
  | .pass w => w.Framed
  | _ => True

theorem Framed.move (hs : s.Framed) (hm : s.KeepsFrames m) : (s.move m).Framed := by
  cases m with
  | happen o => exact ⟨o.disciplined_perform.framed hs.world, hs.parked⟩
  | pass w => exact ⟨hm, hs.parked⟩
  | turn k => exact hs.turn k

/-- **Frames stay in order along a run.** -/
theorem Run.framed (hr : Run C s s') (hC : ∀ s m, C s m → s.KeepsFrames m) (hs : s.Framed) :
    s'.Framed := by
  induction hr with
  | refl => exact hs
  | step _ _ condition ih => exact ih.move (hC _ _ condition)

/-- The frames of every binding that is seen are in order. -/
theorem Framed.seen (hs : s.Framed) {k : Nat} {w : World} (hw : s.seen k = some w) : w.Framed := by
  rw [Session.seen] at hw
  split at hw
  · obtain rfl := Option.some.inj hw
    exact hs.world
  · obtain ⟨b, hb, rfl⟩ := Option.map_eq_some_iff.1 hw
    exact hs.parked b (Array.mem_of_getElem? hb)

/-- **What is pushed can be loaded.** Start a session with any number of bindings, let anything
happen to it, and then let the object at an address be pushed as an exported type. If that does not
fail then one value more is on the stack, and loading it as that type yields the address, unless the
object was obscured; then it yields nothing. An object that is not weak is obscured by owners only,
where types become weak at the roots only. -/
theorem pushed_loads {c : Catalogue} {registries : List (List PlanStep)} {plans : List BindingPlan}
    (hne : plans ≠ []) (hplans : ∀ p ∈ plans, p.registry < registries.length) {s₀ : Session}
    (hstart : start c registries plans = .ok s₀)
    (before : Run (fun s m ↦ s.Orderly m ∧ s.KeepsFrames m) s₀ s) {a : Address} {t : TypeKey}
    {type : Nat} (ha : a ≠ 0) (exported : s.world.binding.registry.idOf? t = some type)
    (hallowed : (Event.pushPointer (some a) t).Allowed s.world) {w' : World}
    (hpushed : (Exec.pushPointer (some a) t).outcome s.world = (.ok (), w')) :
    (∃ x, w'.binding.machine.stack = s.world.binding.machine.stack.push x) ∧
      ∃ found, (Exec.loadPointer (-1) t).outcome w' = (.ok found, w') ∧
        (∀ b, found = some b ↔ b = a ∧ ¬ s.world.Obscured ⟨a, type⟩) ∧
        (s.world.binding.registry.WeakAtRoots → s.world.binding.registry.isWeak type = false →
          (∀ id, ¬ s.world.Remembers (.owned (s.world.rootOf ⟨a, type⟩)) id) → found = some a) := by
  have hsound := (before.sound (sound_start hne hplans hstart)).world
  have hframed := (before.framed (fun _ _ h ↦ h.2) (framed_start hstart)).world
  have haccurate := ((before.mono fun _ _ h ↦ h.1).accurate_of_start hne hplans hstart).seen
    s.seen_current
  have hreturns := (Exec.disciplined_pushPointer (some a) t _ hframed).ok hpushed
  have hregistry := ((Event.pushPointer (some a) t).passes hsound hallowed).registry
  have hafter : (Event.pushPointer (some a) t).after s.world = w' := congrArg Prod.snd hpushed
  rw [hafter] at hregistry
  obtain ⟨x, hstack, hload⟩ := (Exec.ends_pushPointer_delivers hsound haccurate exported
    (hallowed a type rfl exported)).ok hpushed
  have htop := Machine.valueAt_of_push hframed.base_le hreturns.keeps.base (hstack hframed.base_le)
  refine ⟨⟨x, hstack hframed.base_le⟩, _, rfl, ?_⟩
  rw [hregistry, exported, Option.bind_some, htop]
  have hfound := hload ha
  exact ⟨hfound, fun hroots hweak hunowned ↦
    (hfound a).2 ⟨rfl, World.not_obscured hsound hroots hweak hunowned⟩⟩

/-- Where no types are weak, every push is allowed. -/
theorem allowed_pushPointer {w : World} (hnone : w.binding.registry.NoneWeak) (a : Option Address)
    (t : TypeKey) : (Event.pushPointer a t).Allowed w := fun _ type _ _ hweak ↦ by
  rw [hnone.isWeak_eq_false] at hweak
  exact absurd hweak (by simp)

/-- An actor that has been shown as a figure is pushed as an actor and loaded as such. -/
theorem pushed_loads_actor : ∃ w' : World, (Exec.loadPointer (-1) 1).outcome w' =
    (.ok (some 0x1000), w') := by
  let s := stage.move (.happen (.pushPointer (some 0x1008) 0))
  have hnone : stage.world.binding.registry.NoneWeak := by decide +kernel
  have hallowed := allowed_pushPointer hnone (some 0x1008) 0
  have hregistry : s.world.binding.registry = stage.world.binding.registry :=
    (Event.passes _ (sound_start (by decide) (by decide) start_actors).world hallowed).registry
  have hnone' : s.world.binding.registry.NoneWeak := hregistry ▸ hnone
  have before : Run (fun s m ↦ s.Orderly m ∧ s.KeepsFrames m) stage s :=
    .step (.refl _) hallowed ⟨trivial, trivial⟩
  have hfacts : s.world.binding.registry.idOf? 1 = some 1 ∧
      ((Exec.pushPointer (some 0x1000) 1).outcome s.world).1 = .ok () ∧
      s.world.binding.cache.find? (.owned (s.world.rootOf ⟨0x1000, 1⟩)) = none := by
    decide +kernel
  obtain ⟨hexported, hok, hunowned⟩ := hfacts
  obtain ⟨-, found, hload, -, hfound⟩ := pushed_loads (by decide) (by decide) start_actors before
    (by decide) hexported (allowed_pushPointer hnone' (some 0x1000) 1) (Exec.outcome_eq_of_fst hok)
  obtain rfl := hfound hnone'.weakAtRoots (hnone'.isWeak_eq_false 1)
    (World.not_remembers_of_find?_eq_none hunowned)
  exact ⟨_, hload⟩

/-- A push is allowed if the anchor of the object is its own. -/
theorem allowed_push {w : World} {a : Address} {t : TypeKey} {type : Nat}
    (exported : w.binding.registry.idOf? t = some type) (hsingle : w.Single ⟨a, type⟩) :
    (Event.pushPointer (some a) t).Allowed w := by
  intro a' type' ha exported' _
  obtain rfl := Option.some.inj ha
  obtain rfl := Option.some.inj (exported.symm.trans exported')
  exact hsingle

/-- A cast is allowed if the anchor of the object is its own. -/
theorem allowed_cast {w : World} {idx : Int} {target : Nat} {v : View} {a : Address}
    (hv : w.resolve (w.binding.machine.valueAt idx) = .live v)
    (hdown : w.binding.registry.toDerived? w.host.memory v target = some a)
    (hsingle : w.Single ⟨a, target⟩) : (Event.cast idx target).Allowed w := by
  intro v' a' hv' hdown' _
  obtain rfl := Resolved.live.inj (hv.symm.trans hv')
  obtain rfl := Option.some.inj (hdown.symm.trans hdown')
  exact hsingle

/-- Weak objects of three types, of which one is the base of the two others. -/
def troupe : Catalogue where
  types := #[{ name := "Player", size := 16, anchor := some 0 },
    { name := "Singer", size := 24, base := some ⟨0, 0⟩ },
    { name := "Dancer", size := 24, base := some ⟨0, 0⟩ }]
  bases_first := by decide

/-- A session with a binding to a registry of singers and dancers. -/
@[irreducible]
def tour : Session :=
  match start troupe [[.create 1, .create 2]] [{}] with
  | .ok s => s
  | .error _ => {}

theorem start_troupe : start troupe [[.create 1, .create 2]] [{}] = .ok tour := by
  have hok : (match start troupe [[.create 1, .create 2]] [{}] with
    | .ok _ => true
    | .error _ => false) = true := by decide +kernel
  rw [tour]
  cases h : start troupe [[.create 1, .create 2]] [{}] with
  | ok s => rfl
  | error f => simp [h] at hok

/-- **Not all that is pushed can be loaded**: a dancer that has been shown as a player, and cast to
a singer, is pushed as a dancer and cannot be loaded as one. -/
theorem not_pushed_loads : ∃ (s : Session) (w' : World),
    Run (fun s m ↦ s.Orderly m ∧ s.KeepsFrames m) tour s ∧
      s.world.binding.registry.idOf? 2 = some 2 ∧
      (Event.pushPointer (some 0x1000) 2).Allowed s.world ∧
      (Exec.pushPointer (some 0x1000) 2).outcome s.world = (.ok (), w') ∧
      (Exec.loadPointer (-1) 2).outcome w' = (.ok none, w') := by
  let s₁ := tour.move (.happen (.pushPointer (some 0x1000) 0))
  let s₂ := s₁.move (.happen (.cast (-1) 1))
  have hfacts : (tour.world.binding.registry.idOf? 0 = some 0 ∧ tour.world.singleInSlots ⟨0x1000, 0⟩) ∧
      (s₁.world.resolve (s₁.world.binding.machine.valueAt (-1)) = .live ⟨0x1000, 0⟩ ∧
        s₁.world.binding.registry.toDerived? s₁.world.host.memory ⟨0x1000, 0⟩ 1 = some 0x1000 ∧
        s₁.world.singleInSlots ⟨0x1000, 1⟩) ∧
      (s₂.world.binding.registry.idOf? 2 = some 2 ∧ s₂.world.singleInSlots ⟨0x1000, 2⟩) ∧
      ((Exec.pushPointer (some 0x1000) 2).outcome s₂.world).1 = .ok () ∧
      ((Exec.loadPointer (-1) 2).outcome
        ((Exec.pushPointer (some 0x1000) 2).outcome s₂.world).2).1 = .ok none := by
    decide +kernel
  obtain ⟨⟨hexported, hsingle⟩, ⟨hshown, hdown, hsingle₁⟩, ⟨hexported₂, hsingle₂⟩, hok, hnone⟩ := hfacts
  have hallowed : (Event.pushPointer (some 0x1000) 0).Allowed tour.world :=
    allowed_push hexported (World.single_of_slots hsingle)
  have hallowed₁ : (Event.cast (-1) 1).Allowed s₁.world :=
    allowed_cast hshown hdown (World.single_of_slots hsingle₁)
  have hallowed₂ : (Event.pushPointer (some 0x1000) 2).Allowed s₂.world :=
    allowed_push hexported₂ (World.single_of_slots hsingle₂)
  have hrun : Run (fun s m ↦ s.Orderly m ∧ s.KeepsFrames m) tour s₂ :=
    .step (.step (.refl _) hallowed ⟨trivial, trivial⟩) hallowed₁ ⟨trivial, trivial⟩
  exact ⟨s₂, _, hrun, hexported₂, hallowed₂, Exec.outcome_eq_of_fst hok,
    Exec.outcome_eq_of_fst hnone⟩

end Session

end ObjectBridge
