import ObjectBridge.Proofs.CallDiscipline
import ObjectBridge.Proofs.ProgramLaws

/-!
# Everything keeps to its frame

That a computation keeps to its frame is a law, `Exec.framing`, and so every function keeps to its frame
(`Exec.disciplined_runner`).
-/

namespace ObjectBridge

namespace Exec

/-- A cycle of the collector concerns the heap and the host. -/
theorem disciplined_sweep : Disciplined sweep := by
  intro w hw
  have hflushed := returns_flushed hw
  have hheap (heap : Heap) (tally : Tally) (host : Host) : w.Returns { flushed w with
      host := host
      binding.machine := { (flushed w).binding.machine with heap := heap, tally := tally } } :=
    hflushed.trans ⟨.of_stack (hflushed.framed hw).base_le rfl rfl, rfl⟩
  simp only [sweep, ends_bind, ends_flushPins, ends_machine]
  split
  · simp only [ends_bind, ends_modifyMachine, ends_panic]
    exact (hheap _ _ _).escapes hw
  · simp only [ends_bind, ends_modifyMachine, ends_modifyHost, ends_pure]
    exact hheap _ _ _

/-- **Keeping to the frame is a law.** -/
def framing : Law where
  Governs := Disciplined
  bind := .bind
  reading := .reading
  edit h w hw := by
    have hreturns {w' : World} (h : w.Edits w') : w.Returns w' :=
      ⟨h.machine.keeps hw.base_le, h.settings⟩
    exact (h w).imp (fun _ _ h ↦ hreturns h) fun i _ h ↦ (hreturns h).leaves hw i
  attempt := .attempt
  guarded := .guarded
  onInterrupt _ hx := hx.onInterrupt fun _ hw ↦ ⟨.refl hw.base_le, rfl⟩
  call nargs nresults hrun := disciplined_call hrun nargs nresults
  tryCall nargs nresults hrun := disciplined_tryCall hrun nargs nresults
  sweep := disciplined_sweep
  muted hx w hw := by
    rw [ends_muted]
    exact (hx w hw).imp (fun _ _ h ↦ h.of_binding rfl rfl) fun _ _ h ↦ h.of_binding rfl rfl
  deeper hx w hw := by
    rw [ends_deeper]
    exact (hx { w with desk.depth := w.desk.depth + 1 } hw).imp
      (fun _ _ h ↦ h.of_binding rfl rfl) fun _ _ h ↦ h.of_binding rfl rfl

/-- **Every function keeps to its frame.** -/
theorem disciplined_runner (fuel : Nat) (c : Callable) : Disciplined (runner fuel c) :=
  governs_runner (L := framing) fuel c

theorem disciplined_pushPointer (a : Option Address) (t : TypeKey) :
    Disciplined (pushPointer a t) :=
  governs_pushPointer (L := framing) a t

theorem disciplined_cast (idx : Int) (target : Nat) : Disciplined (cast idx target) :=
  governs_cast (L := framing) idx target

end Exec

/-- Every action keeps to its frame. -/
theorem Action.disciplined_perform (fuel : Nat) (a : Action) :
    Exec.Disciplined (a.perform (Exec.runner fuel)) :=
  a.governs_perform (L := Exec.framing) (Exec.disciplined_runner fuel)

end ObjectBridge
