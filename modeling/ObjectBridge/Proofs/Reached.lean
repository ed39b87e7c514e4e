import ObjectBridge.Proofs.Discipline
import ObjectBridge.Session

/-!
# The states of a session

A world is reached (`World.Reached`) when a session has followed directives, and in the middle of
that: when a callee has just begun, after each action that a program performs there, and when the
callee has ended, however it ended. What each of these steps keeps, and preparing a machine as well,
holds in all worlds that are reached (`World.Reached.invariant`).

So it is with frames. A session begins with empty stacks, and whatever it is told to do leaves the
frames of its bindings in order (`World.Reached.framed`). With it goes what a call makes of the
stack (`World.call_discipline`).
-/

namespace ObjectBridge

/-! ### Reached worlds -/

namespace World

/-- A world that a session comes through. -/
inductive Reached : World → Prop
  /-- The session has followed some directives. -/
  | session {c : Catalogue} {registries : List (List PlanStep)} {plans : List BindingPlan} {s : Session}
      (h : Session.start c registries plans = .ok s) (ds : List Directive) : Reached (s.run ds).world
  /-- A callee begins. -/
  | entered {w w' : World} {nargs : Nat} {r : Nat × Callable} (hw : Reached w)
      (h : (Exec.enter nargs).outcome w = (.ok r, w')) : Reached w'
  /-- An action has been performed, or has been interrupted. -/
  | performed {w : World} (hw : Reached w) (fuel : Nat) (a : Action) :
      Reached ((a.perform (Exec.runner fuel)).outcome w).2
  /-- A callee has ended, but its frame has not been closed. -/
  | ran {w : World} (hw : Reached w) (fuel : Nat) (c : Callable) :
      Reached ((Exec.runner fuel c).outcome w).2

end World

/-- What holds of a binding whose machine has not been prepared yet, and is kept by each way in
which a session comes to another world. -/
structure Binding.Invariant (P : Binding → Prop) : Prop where
  initial {b : Binding} : b.machine = .initial → P b
  setup {w w' : World} {fuel : Nat} : P w.binding →
    (Exec.setup (Exec.runner fuel)).outcome w = (.ok (), w') → P w'.binding
  entered {w w' : World} {nargs : Nat} {r : Nat × Callable} : P w.binding →
    (Exec.enter nargs).outcome w = (.ok r, w') → P w'.binding
  performed {w : World} : P w.binding → ∀ (fuel : Nat) (a : Action),
    P ((a.perform (Exec.runner fuel)).outcome w).2.binding
  ran {w : World} : P w.binding → ∀ (fuel : Nat) (c : Callable),
    P ((Exec.runner fuel c).outcome w).2.binding

/-! ### Sessions -/

namespace Session

/-- Something holds of the binding that is called, and of every other. -/
structure Throughout (P : Binding → Prop) (s : Session) : Prop where
  world : P s.world.binding
  parked : ∀ b ∈ s.bindings, P b

namespace Throughout

variable {P : Binding → Prop} {s s' : Session}

theorem park (h : s.Throughout P) : s.park.Throughout P where
  world := h.world
  parked b hb := by
    rcases Array.mem_or_eq_of_mem_setIfInBounds hb with hb | rfl
    · exact h.parked b hb
    · exact h.world

theorem turn (h : s.Throughout P) (k : Nat) : (s.turn k).Throughout P := by
  rw [Session.turn]
  dsimp only
  split
  · rename_i b hb
    exact ⟨h.park.parked b (Array.mem_of_getElem? hb), h.park.parked⟩
  · exact h.park

/-- A binding is made from a machine at the beginning, which is then prepared. -/
theorem addBinding (hP : Binding.Invariant P) (hs : s.Throughout P) {registries : Array Registry}
    {p : BindingPlan} (h : s.addBinding registries p = .ok s') : s'.Throughout P := by
  unfold Session.addBinding at h
  extract_lets parked number fresh old world at h
  split at h
  · rename_i w hsetup
    have hw : P w.binding := hP.setup (hP.initial rfl) hsetup
    obtain rfl := Except.ok.inj h
    refine ⟨hw, fun b hb ↦ ?_⟩
    rcases Array.mem_push.1 hb with hb | rfl
    · exact hs.park.parked b hb
    · exact hw
  · exact absurd h (by simp)
  · exact absurd h (by simp)

theorem foldlM (hP : Binding.Invariant P) (hs : s.Throughout P) {registries : Array Registry}
    {plans : List BindingPlan} (h : plans.foldlM (fun s p ↦ s.addBinding registries p) s = .ok s') :
    s'.Throughout P := by
  induction plans generalizing s with
  | nil =>
    obtain rfl := Except.ok.inj h
    exact hs
  | cons p plans ih =>
    rw [List.foldlM_cons] at h
    cases hp : s.addBinding registries p with
    | error f =>
      rw [hp] at h
      exact absurd h (by simp [bind, Except.bind])
    | ok s₁ =>
      rw [hp] at h
      exact ih (hs.addBinding hP hp) h

/-- **An invariant of bindings holds throughout a session that is started.** -/
theorem of_start (hP : Binding.Invariant P) {c : Catalogue} {registries : List (List PlanStep)}
    {plans : List BindingPlan} (h : start c registries plans = .ok s) : s.Throughout P := by
  let host : Host :=
    { catalogue := c
      weakTables := ((registries.map (Registry.ofPlan c)).toArray).map fun _ ↦ some {} }
  have hbegin : Throughout P { world := { host := host } } :=
    ⟨hP.initial rfl, fun b hb ↦ absurd hb (by simp)⟩
  have h' : (plans.foldlM (fun (s : Session) p ↦
      s.addBinding ((registries.map (Registry.ofPlan c)).toArray) p) { world := { host := host } } >>=
        fun (s : Session) ↦ pure (s.turn 0)) = Except.ok s := h
  cases hfold : plans.foldlM (fun (s : Session) p ↦
      s.addBinding ((registries.map (Registry.ofPlan c)).toArray) p) { world := { host := host } } with
  | error f =>
    rw [hfold] at h'
    exact absurd h' (by simp [bind, Except.bind])
  | ok s₁ =>
    rw [hfold] at h'
    obtain rfl := Except.ok.inj h'
    exact (hbegin.foldlM hP hfold).turn 0

/-- It holds throughout whatever the session is told to do. -/
theorem follow (hP : Binding.Invariant P) (hs : s.Throughout P) (d : Directive) :
    (s.follow d).Throughout P := by
  cases d with
  | turn k => exact hs.turn k
  | act a => exact ⟨hP.performed hs.world (fuel s.world) a, hs.parked⟩

theorem run (hP : Binding.Invariant P) (hs : s.Throughout P) (ds : List Directive) :
    (s.run ds).Throughout P := by
  induction ds generalizing s with
  | nil => exact hs
  | cons d ds ih => exact ih (hs.follow hP d)

end Throughout

end Session

/-- **An invariant of bindings holds in every world that is reached.** -/
theorem World.Reached.invariant {P : Binding → Prop} (hP : Binding.Invariant P) {w : World}
    (h : w.Reached) : P w.binding := by
  -- By induction on how the world is reached; in a session it holds of all bindings.
  induction h with
  | session h ds => exact ((Session.Throughout.of_start hP h).run hP ds).world
  | entered hw h ih => exact hP.entered ih h
  | performed hw fuel a ih => exact hP.performed ih fuel a
  | ran hw fuel c ih => exact hP.ran ih fuel c

/-! ### Frames -/

/-- That frames are in order is an invariant: a machine begins with an empty stack and no frames,
and everything keeps to its frame. -/
theorem Binding.invariant_framed : Binding.Invariant Binding.Framed where
  initial {b} h :=
    { sorted := by
        rw [h]
        exact .nil
      base_le := by
        rw [h]
        exact Nat.le_refl 0
      depth_le := by
        rw [h]
        exact Nat.zero_le _ }
  setup {w w' fuel} hw h := by
    have hsetup := Exec.governs_setup (L := Exec.framing) (Exec.disciplined_runner fuel) w hw
    exact (hsetup.ok h).framed hw
  entered hw h := by
    obtain ⟨hn, -, hentered⟩ := (Exec.ends_enter hw _).ok h
    exact hentered.framed hw hn
  performed hw fuel a := (a.disciplined_perform fuel).framed hw
  ran hw fuel c := (Exec.disciplined_runner fuel c).framed hw

namespace Session

/-- The frames of the binding that is called are in order, and so are those of every other. -/
structure Framed (s : Session) : Prop where
  world : s.world.Framed
  parked : ∀ b ∈ s.bindings, b.Framed

variable {s : Session}

theorem framed_iff : s.Framed ↔ s.Throughout Binding.Framed :=
  ⟨fun h ↦ ⟨h.world, h.parked⟩, fun h ↦ ⟨h.world, h.parked⟩⟩

theorem Framed.turn (h : s.Framed) (k : Nat) : (s.turn k).Framed :=
  framed_iff.2 ((framed_iff.1 h).turn k)

/-- The frames of a session are in order from the start. -/
theorem framed_start {c : Catalogue} {registries : List (List PlanStep)}
    {plans : List BindingPlan} (h : start c registries plans = .ok s) : s.Framed :=
  framed_iff.2 (.of_start Binding.invariant_framed h)

end Session

namespace World

/-- **In every world that is reached the frames are in order.** -/
theorem Reached.framed {w : World} (h : w.Reached) : w.Framed :=
  h.invariant Binding.invariant_framed

end World

/-- A session with one binding, to a registry of no types. -/
@[irreducible]
def Session.lobby : Session :=
  match start default [[]] [{}] with
  | .ok s => s
  | .error _ => {}

theorem Session.start_lobby : start default [[]] [{}] = .ok lobby := by
  have hok : (match start default [[]] [{}] with
    | .ok _ => true
    | .error _ => false) = true := by decide +kernel
  rw [lobby]
  cases h : start default [[]] [{}] with
  | ok s => rfl
  | error f => simp [h] at hok

end ObjectBridge
