import ObjectBridge.Proofs.Turns

/-!
# Relations that computations keep

Many a law says that the world after a computation stands in some relation to the world before it,
no matter how the computation ends. All that is to be shown of such a relation is how it composes,
that it holds of edits and of changes of the stack, and that it holds of a cycle of the collector
(`World.Lawful`). Then it is a law (`Exec.Law.ofLawful`).
-/

namespace ObjectBridge

namespace World

/-- A relation between worlds that everything keeps. -/
structure Lawful (R : World → World → Prop) : Prop where
  trans {w w' w'' : World} : R w w' → R w' w'' → R w w''
  edits {w w' : World} : w.Edits w' → R w w'
  restacked {w w' : World} : w.Restacked w' → R w w'
  /-- A cycle leaves a new heap and counts what it removes. What becomes of the removed objects
  concerns the host. -/
  collected {w : World} {c : Collection} :
    w.binding.machine.heap.collect w.binding.machine.roots = .ok c → ∀ host, R w { w with
      host := host
      binding.machine := { w.binding.machine with
        heap := c.heap, tally := w.binding.machine.tally.add c.tally } }
  /-- A cycle that meets a stray reference leaves the heap as it is at that point. -/
  interrupted {w : World} {i : Interruption} :
    w.binding.machine.heap.collect w.binding.machine.roots = .error i →
      R w { w with binding.machine := { w.binding.machine with heap := i.heap } }

/-- What is done to the world outside the binding is of no consequence. -/
theorem Lawful.outside {R : World → World → Prop} (hR : Lawful R) {w w₁ w₂ w' : World}
    (h : R w₁ w₂) (hstart : w₁.binding = w.binding) (hend : w'.binding = w₂.binding) : R w w' := by
  have hsame {w w' : World} (hb : w'.binding = w.binding) : R w w' :=
    hR.edits (.of_machine (congrArg _ hb) (congrArg _ hb))
  exact hR.trans (hsame hstart) (hR.trans h (hsame hend))

theorem edits_flushed (w : World) : w.Edits (Exec.flushed w) :=
  ⟨w.binding.machine.edits_foldl_unreference w.binding.tables.pinned
    ((w.pins[w.binding.number]?.getD {}).released), rfl⟩

end World

namespace Exec

/-- However a computation ends, the world stands in a relation to the world before. -/
def Relates (R : World → World → Prop) {α : Type} (x : Exec α) : Prop :=
  ∀ w : World, Ends x (fun _ w' ↦ R w w') (fun _ w' ↦ R w w') w

variable {R : World → World → Prop} {α β : Type} {x : Exec α}

namespace Relates

theorem bind (hR : World.Lawful R) {f : α → Exec β} (hx : Relates R x) (hf : ∀ a, Relates R (f a)) :
    Relates R (x >>= f) := by
  intro w
  rw [ends_bind]
  refine (hx w).imp (fun a w₁ h₁ ↦ ?_) fun _ _ h ↦ h
  exact (hf a w₁).imp (fun _ _ h ↦ hR.trans h₁ h) fun _ _ h ↦ hR.trans h₁ h

theorem tryCatch (hR : World.Lawful R) {f : Interrupt → Exec α} (hx : Relates R x)
    (hf : ∀ i, Relates R (f i)) : Relates R (tryCatch x f) := by
  intro w
  rw [ends_tryCatch]
  refine (hx w).imp (fun _ _ h ↦ h) fun i w₁ h₁ ↦ ?_
  exact (hf i w₁).imp (fun _ _ h ↦ hR.trans h₁ h) fun _ _ h ↦ hR.trans h₁ h

theorem of_restacks (hR : World.Lawful R) (hx : Restacks x) : Relates R x :=
  fun w ↦ (hx w).imp (fun _ _ h ↦ hR.restacked h) fun _ _ h ↦ hR.restacked h

theorem throw (hR : World.Lawful R) (i : Interrupt) : Relates R (throw i : Exec α) :=
  of_restacks hR (.throw i)

theorem map (g : α → β) (hx : Relates R x) : Relates R (g <$> x) := by
  intro w
  rw [ends_map]
  exact hx w

end Relates

/-! ### Calls -/

theorem relates_enter (hR : World.Lawful R) (nargs : Nat) : Relates R (enter nargs) := fun w ↦
  have hflushed := hR.edits w.edits_flushed
  (ends_enter_restacked w nargs).imp (fun _ _ h ↦ hR.trans hflushed (hR.restacked h))
    fun _ _ h ↦ hR.trans hflushed (hR.restacked h)

theorem relates_call (hR : World.Lawful R) {run : Runner} (hrun : ∀ c, Relates R (run c))
    (nargs : Nat) (nresults : Option Nat) : Relates R (call run nargs nresults) := by
  refine (relates_enter hR nargs).bind hR fun r ↦ .bind hR ?_ fun n ↦
    .of_restacks hR (restacks_closeFrame.bind fun _ ↦ restacks_placeResults _ _ _)
  refine (hrun _).tryCatch hR fun i ↦ ?_
  cases i with
  | failure f =>
    exact .of_restacks hR <| restacks_closeFrame.bind fun _ ↦
      (Restacks.modifyMachine fun m ↦ ⟨_, _, rfl⟩).bind fun _ ↦ .throw _
  | panic | exhausted => exact .throw hR _

theorem relates_tryCall (hR : World.Lawful R) {run : Runner} (hrun : ∀ c, Relates R (run c))
    (nargs : Nat) (nresults : Option Nat) : Relates R (tryCall run nargs nresults) := by
  refine Relates.bind hR (.of_restacks hR restacks_machine) fun m ↦
    (relates_call hR hrun nargs nresults).tryCatch hR fun i ↦ ?_
  cases i with
  | failure | panic =>
    exact .of_restacks hR <| (Restacks.modifyMachine fun m ↦ ⟨_, _, rfl⟩).bind fun _ ↦ .throw _
  | exhausted => exact .throw hR _

/-! ### Cycles -/

theorem relates_sweep (hR : World.Lawful R) : Relates R sweep := by
  intro w
  have hflushed {w' : World} (h : R (flushed w) w') : R w w' :=
    hR.trans (hR.edits w.edits_flushed) h
  simp only [sweep, ends_bind, ends_flushPins, ends_machine]
  split
  · rename_i i hi
    simp only [ends_bind, ends_modifyMachine, ends_panic]
    exact hflushed (hR.interrupted hi)
  · rename_i c hc
    simp only [ends_bind, ends_modifyMachine, ends_modifyHost, ends_pure]
    exact hflushed (hR.collected hc _)

/-- **A lawful relation is a law.** -/
def Law.ofLawful (hR : World.Lawful R) : Law where
  Governs := Relates R
  bind := .bind hR
  reading h w := h w w
  edit h w := (h w).imp (fun _ _ h ↦ hR.edits h) fun _ _ h ↦ hR.edits h
  attempt hx := (hx.map _).tryCatch hR fun i ↦ by
    cases i with
    | failure f => exact .of_restacks hR (.pure _)
    | panic | exhausted => exact .throw hR _
  guarded hx w := by
    rw [ends_guarded]
    exact (hx w).imp (fun _ w' h ↦ hR.trans h (hR.restacked (w'.restacked_setTop _)))
      fun _ w' h ↦ hR.trans h (hR.restacked (w'.restacked_setTop _))
  onInterrupt f hx := hx.tryCatch hR fun i ↦
    .bind hR (fun w ↦ hR.edits (.of_machine rfl rfl)) fun _ ↦ .throw hR i
  call nargs nresults hrun := relates_call hR hrun nargs nresults
  tryCall nargs nresults hrun := relates_tryCall hR hrun nargs nresults
  sweep := relates_sweep hR
  muted hx w := by
    rw [ends_muted]
    exact (hx w).imp (fun _ _ h ↦ hR.outside h rfl rfl) fun _ _ h ↦ hR.outside h rfl rfl
  deeper hx w := by
    rw [ends_deeper]
    exact (hx _).imp (fun _ _ h ↦ hR.outside h rfl rfl) fun _ _ h ↦ hR.outside h rfl rfl

end Exec

end ObjectBridge
