import ObjectBridge.Proofs.Sweeping

/-!
# Calls of finalizers

Around the callee, a call only moves values and frames, so it keeps whatever the callee keeps, as
long as that has nothing to do with values and frames (`World.Steady`). So do the finalizers that a
cycle of the collector leaves to be run (`Exec.steady_runFinalizer`); where they are those of the
bridge, they keep up what the bridge keeps up (`Exec.keeps_runFinalizer`).
-/

namespace ObjectBridge

namespace World

variable {R : Realm} {K : Set CacheKey} {w w' : World} {I : World → Prop}

/-- A function that is on the stack is what a call of it comes to. -/
theorem Calls.eq {pos : Nat} {c c' : Callable} {v : Value}
    (hv : w.binding.machine.stack[pos]? = some v)
    (hc : w.binding.machine.callable? v = some c) (h : w.Calls pos c') : c' = c := by
  rw [Calls, hv, Option.getD_some, hc] at h
  rcases h with h | ⟨h, -⟩
  · exact (Option.some.inj h).symm
  · exact absurd h (by simp)

/-- A condition on worlds in order that outlasts what does not matter to the bridge and leaves the
host alone. -/
structure Steady (R : Realm) (I : World → Prop) : Prop where
  sound : ∀ {w}, I w → w.Sound R
  quiet : ∀ {w w' : World}, w.Quiet w' → w'.host = w.host → I w → I w'

/-- A change of stack and frames. -/
theorem Steady.stack (hI : Steady R I) (hw : I w) {m : Machine}
    (hheap : m.heap = w.binding.machine.heap) (hroot : m.registry = w.binding.machine.registry) :
    I { w with binding.machine := m } :=
  hI.quiet (Quiet.of_heap hheap hroot) rfl hw

theorem Steady.withFrames (hI : Steady R I) (hw : I w) (frames : List Nat) :
    I (w.withFrames frames) :=
  hI.stack hw rfl rfl

theorem Steady.flushed (hI : Steady R I) (hw : I w) : I (Exec.flushed w) :=
  hI.quiet (Exec.quiet_flushed (hI.sound hw)) rfl hw

/-- What the bridge keeps up is steady. -/
theorem steady_leads (R : Realm) (K : Set CacheKey) (w : World) : Steady R (w.Leads R K) where
  sound h := h.sound
  quiet hq _ h := h.trans (Leads.quiet h.sound hq)

end World

namespace Exec

variable {α : Type} {R : Realm} {K : Set CacheKey} {w : World} {I : World → Prop}

theorem steady_resolveCallable (hI : World.Steady R I) (hw : I w) (pos : Nat) :
    Ends (resolveCallable pos) (fun c w' ↦ I w' ∧ w.Calls pos c) (fun _ ↦ I) w := by
  simp only [resolveCallable, ends_bind, ends_machine]
  split
  · rename_i c hc
    exact ⟨hw, Or.inl hc⟩
  · rename_i hnone
    split
    · rename_i c hc
      exact ⟨hI.stack hw rfl rfl, Or.inr ⟨hnone, hc⟩⟩
    · exact hI.stack hw rfl rfl

theorem steady_resizeStack (hI : World.Steady R I) (hw : I w) (size : Nat) :
    Ends (resizeStack size) (fun _ ↦ I) (fun _ ↦ I) w := by
  simp only [resizeStack, ends_bind]
  exact ends_reserve _ _ (hI.stack hw rfl rfl) fun _ ↦ hw

theorem steady_placeResults (hI : World.Steady R I) (hw : I w) (pos n : Nat) (wanted : Option Nat) :
    Ends (placeResults pos n wanted) (fun _ ↦ I) (fun _ ↦ I) w := by
  simp only [placeResults, ends_bind, ends_machine, ends_modifyMachine]
  have hpushed : ∀ (m : Machine) (vs : List Value), (m.pushAll vs).heap = m.heap ∧
      (m.pushAll vs).registry = m.registry := fun m vs ↦ by
    induction vs generalizing m with
    | nil => exact ⟨rfl, rfl⟩
    | cons v vs ih => exact ih (m.push v)
  have hplaced : ∀ vs, I { w with
      binding.machine := (w.binding.machine.truncate pos).pushAll vs } := fun vs ↦
    hI.stack hw (hpushed _ vs).1 (hpushed _ vs).2
  exact steady_resizeStack hI (hplaced _) _

/-- Opening the frame of a callee only moves values and frames, besides releasing pins. -/
theorem steady_enter (hI : World.Steady R I) (hw : I w) (nargs : Nat) :
    Ends (enter nargs)
      (fun r w' ↦ I w' ∧
        (flushed w).Calls ((flushed w).binding.machine.stack.size - nargs - 1) r.2)
      (fun _ ↦ I) w := by
  have hflush := hI.flushed hw
  rw [enter, ends_bind, ends_flushPins, ends_bind, ends_machine]
  split
  · exact hflush
  · rw [ends_bind]
    refine Ends.imp (steady_resolveCallable hI hflush _) (fun c w₁ h₁ ↦ ?_) fun _ _ h ↦ h
    simp only [ends_bind, ends_binding, ends_machine]
    split
    · exact hI.stack h₁.1 rfl rfl
    · exact ⟨hI.withFrames h₁.1 _, h₁.2⟩

/-- **A call keeps what the callee keeps.** -/
theorem steady_call (hI : World.Steady R I) (hw : I w) {run : Runner} {nargs : Nat}
    (nresults : Option Nat)
    (hrun : ∀ c, (flushed w).Calls ((flushed w).binding.machine.stack.size - nargs - 1) c →
      ∀ w₁, I w₁ → Ends (run c) (fun _ ↦ I) (fun _ ↦ I) w₁) :
    Ends (call run nargs nresults) (fun _ ↦ I) (fun _ ↦ I) w := by
  rw [call, ends_bind]
  refine Ends.imp (steady_enter hI hw nargs) (fun r w₁ h₁ ↦ ?_) fun _ _ h ↦ h
  simp only [ends_bind, ends_tryCatch]
  refine Ends.imp (hrun r.2 h₁.2 _ h₁.1) (fun n w₂ h ↦ ?_) fun i w₂ h ↦ ?_
  · rw [ends_bind, ends_closeFrame]
    exact steady_placeResults hI (hI.withFrames h _) _ n nresults
  · cases i with
    | failure f =>
      simp only [ends_bind, ends_closeFrame, ends_modifyMachine, ends_throw]
      exact hI.stack (hI.withFrames h w₂.binding.machine.frames.tail) rfl rfl
    | panic text => exact h
    | exhausted => exact h

/-- A protected call does, too: what unwinds after a failure only moves values and frames. -/
theorem steady_tryCall (hI : World.Steady R I) (hw : I w) (run : Runner) (nargs : Nat)
    (nresults : Option Nat)
    (hrun : ∀ c, (flushed w).Calls ((flushed w).binding.machine.stack.size - nargs - 1) c →
      ∀ w₁, I w₁ → Ends (run c) (fun _ ↦ I) (fun _ ↦ I) w₁) :
    Ends (tryCall run nargs nresults) (fun _ ↦ I) (fun _ ↦ I) w := by
  simp only [tryCall, ends_bind, ends_machine, ends_tryCatch]
  refine Ends.imp (steady_call hI hw nresults hrun) (fun _ _ h ↦ h) fun i w₁ h ↦ ?_
  cases i with
  | failure f => exact hI.stack h rfl rfl
  | panic text => exact hI.stack h rfl rfl
  | exhausted => exact h

/-- What is attempted keeps what it keeps. -/
theorem steady_attempt {x : Exec α} (hx : Ends x (fun _ ↦ I) (fun _ ↦ I) w) :
    Ends (attempt x) (fun _ ↦ I) (fun _ ↦ I) w := by
  simp only [attempt, ends_tryCatch, ends_map]
  refine Ends.imp hx (fun _ _ h ↦ h) fun i w₁ h ↦ ?_
  cases i with
  | failure f => exact h
  | panic text => exact h
  | exhausted => exact h

/-- **Running the finalizer of a userdata keeps what the finalizer keeps**, and changes nothing if
there is none. -/
theorem steady_runFinalizer (hI : World.Steady R I) (hw : I w) {run : Runner} {id : Nat}
    {handler : Value} (hhandler : w.binding.machine.metafield (.userdata id) "__gc" = handler)
    (hrun : handler ≠ .nil → ∃ c, w.binding.machine.callable? handler = some c ∧
      ∀ w₁, I w₁ → Ends (run c) (fun _ ↦ I) (fun _ ↦ I) w₁) :
    Ends (runFinalizer run id) (fun _ ↦ I) (fun _ ↦ I) w := by
  simp only [runFinalizer, ends_bind, ends_machine, hhandler]
  split
  · exact hw
  · rename_i hnil
    obtain ⟨c, hc, hkeeps⟩ := hrun fun h ↦ hnil (by rw [h]; rfl)
    have hpush : I ((w.pushing handler).pushing (.userdata id)) :=
      hI.quiet ((w.pushing handler).quiet_pushing _) rfl (hI.quiet (w.quiet_pushing _) rfl hw)
    have hcall := steady_tryCall hI hpush run 1 (some 0) fun c' hc' ↦ by
      obtain ⟨tables, hmachine, -⟩ := machine_flushed ((w.pushing handler).pushing (.userdata id))
      have hstack : ((w.pushing handler).pushing (.userdata id)).binding.machine.stack =
          (w.binding.machine.stack.push handler).push (.userdata id) := rfl
      obtain rfl : c' = c := by
        refine hc'.eq (v := handler) ?_ (by rw [hmachine]; exact hc)
        rw [hmachine]
        simp only [hstack, Array.size_push, Nat.add_sub_cancel]
        rw [Array.getElem?_push, if_neg (by simp), Array.getElem?_push_size]
      exact hkeeps
    simp only [ends_bind, ends_push]
    exact Ends.imp (steady_attempt hcall) (fun _ _ h ↦ hI.stack h rfl rfl) fun _ _ h ↦ h

/-- **Running a finalizer of the bridge keeps up what the bridge keeps up.** -/
theorem keeps_runFinalizer (hw : w.Sound R) {run : Runner} {id : Nat} {handler : Value}
    (hhandler : w.binding.machine.metafield (.userdata id) "__gc" = handler)
    (hrun : handler ≠ .nil → ∃ c, w.binding.machine.callable? handler = some c ∧
      ∀ w₁, w₁.Sound R → Keeps R K (run c) (fun _ _ ↦ True) w₁) :
    Keeps R K (runFinalizer run id) (fun _ _ ↦ True) w := by
  have hends := steady_runFinalizer (w.steady_leads R K) (World.Leads.refl hw) hhandler fun hne ↦ by
    obtain ⟨c, hc, hkeeps⟩ := hrun hne
    exact ⟨c, hc, fun w₁ h₁ ↦ Ends.imp (Keeps.after h₁ (hkeeps w₁ h₁.sound)) (fun _ _ h ↦ h.1)
      fun _ _ h ↦ h⟩
  exact Ends.imp hends (fun _ _ h ↦ ⟨h, trivial⟩) fun _ _ h ↦ h

end Exec

end ObjectBridge
