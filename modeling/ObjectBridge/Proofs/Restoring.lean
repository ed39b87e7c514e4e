import ObjectBridge.Proofs.Reached

/-!
# Calls that leave no trace on the stack

A protected call that fails restores the frames and the stack below the called value, whatever ended
it. The calls that take their function as a value and give their results as values leave the stack
exactly as it was, whether they go well or fail (`Exec.Balanced`): they push what they call inside a
stack guard, over which what they call leaves alone what was there before (`Exec.Extending`).
-/

namespace ObjectBridge

namespace World

/-- Frames and stack are as they were. -/
structure Balanced (w w' : World) : Prop where
  frames : w'.binding.machine.frames = w.binding.machine.frames
  stack : w'.binding.machine.stack = w.binding.machine.stack
  settings : w'.binding.settings = w.binding.settings

/-- Frames are as they were, and so is the stack, up to values that have been pushed. -/
structure Extends (w w' : World) : Prop where
  frames : w'.binding.machine.frames = w.binding.machine.frames
  stack : ∃ vs, w'.binding.machine.stack.toList = w.binding.machine.stack.toList ++ vs
  settings : w'.binding.settings = w.binding.settings

variable {w w' w'' : World}

theorem Balanced.refl (w : World) : w.Balanced w :=
  ⟨rfl, rfl, rfl⟩

theorem Balanced.trans (h : w.Balanced w') (h' : w'.Balanced w'') : w.Balanced w'' :=
  ⟨h'.frames.trans h.frames, h'.stack.trans h.stack, h'.settings.trans h.settings⟩

theorem Balanced.extends (h : w.Balanced w') : w.Extends w' :=
  ⟨h.frames, ⟨[], by rw [h.stack, List.append_nil]⟩, h.settings⟩

theorem Extends.trans (h : w.Extends w') (h' : w'.Extends w'') : w.Extends w'' := by
  obtain ⟨vs, hvs⟩ := h.stack
  obtain ⟨vs', hvs'⟩ := h'.stack
  exact ⟨h'.frames.trans h.frames, ⟨vs ++ vs', by rw [hvs', hvs, List.append_assoc]⟩,
    h'.settings.trans h.settings⟩

theorem Extends.framed (h : w.Extends w') (hw : w.Framed) : w'.Framed where
  sorted := h.frames.symm ▸ hw.sorted
  base_le := by
    obtain ⟨vs, hvs⟩ := h.stack
    have hlength := congrArg List.length hvs
    rw [List.length_append, Array.length_toList, Array.length_toList] at hlength
    have hbase : w'.binding.machine.base = w.binding.machine.base := by
      rw [Machine.base, Machine.base, h.frames]
    have := hw.base_le
    omega
  depth_le := by
    rw [h.frames, h.settings]
    exact hw.depth_le

/-- Cutting off what has been pushed leaves the stack as it was. -/
theorem Extends.balanced_setTop (h : w.Extends w') (hw : w.Framed) :
    w.Balanced { w' with
      binding.machine := w'.binding.machine.setTop w.binding.machine.top } where
  frames := h.frames
  settings := h.settings
  stack := by
    obtain ⟨vs, hvs⟩ := h.stack
    have hsize : w'.binding.machine.base + w.binding.machine.top = w.binding.machine.stack.size := by
      have := hw.base_le
      rw [Machine.top, Machine.base, h.frames, ← Machine.base]
      omega
    apply Array.toList_inj.1
    show (w'.binding.machine.resize _).stack.toList = _
    have hlength := congrArg List.length hvs
    rw [List.length_append, Array.length_toList, Array.length_toList] at hlength
    rw [hsize, Machine.toList_resize, hvs, Nat.sub_eq_zero_of_le (by omega), List.replicate_zero,
      List.append_nil, ← Array.length_toList, List.take_left]

end World

namespace Exec

/-- A computation leaves frames and stack exactly as they are, if it yields a value or fails. -/
def Balanced {α : Type} (x : Exec α) : Prop :=
  ∀ w : World, w.Framed → Ends x (fun _ w' ↦ w.Balanced w')
    (fun i w' ↦ ∀ f, i = .failure f → w.Balanced w') w

/-- A computation only pushes, if it yields a value or fails. -/
def Extending {α : Type} (x : Exec α) : Prop :=
  ∀ w : World, w.Framed → Ends x (fun _ w' ↦ w.Extends w')
    (fun i w' ↦ ∀ f, i = .failure f → w.Extends w') w

variable {α β : Type} {x : Exec α} {f : α → Exec β}

theorem Balanced.pure (a : α) : Balanced (pure a : Exec α) :=
  fun w _ ↦ .refl w

theorem Balanced.throw (i : Interrupt) : Balanced (throw i : Exec α) :=
  fun w _ _ _ ↦ .refl w

theorem Balanced.ite {c : Prop} [Decidable c] {y : Exec α} (hx : c → Balanced x)
    (hy : ¬c → Balanced y) : Balanced (if c then x else y) := by
  split
  · exact hx ‹_›
  · exact hy ‹_›

theorem Balanced.bind (hx : Balanced x) (hf : ∀ a, Balanced (f a)) : Balanced (x >>= f) := by
  intro w hw
  rw [ends_bind]
  refine (hx w hw).imp (fun a w₁ h₁ ↦ ?_) fun _ _ h ↦ h
  exact (hf a w₁ (h₁.extends.framed hw)).imp (fun _ _ h ↦ h₁.trans h)
    fun _ _ h f hi ↦ h₁.trans (h f hi)

theorem Extending.bind (hx : Extending x) (hf : ∀ a, Extending (f a)) : Extending (x >>= f) := by
  intro w hw
  rw [ends_bind]
  refine (hx w hw).imp (fun a w₁ h₁ ↦ ?_) fun _ _ h ↦ h
  exact (hf a w₁ (h₁.framed hw)).imp (fun _ _ h ↦ h₁.trans h) fun _ _ h f hi ↦ h₁.trans (h f hi)

/-- **A stack guard over what only pushes restores the stack exactly.** -/
theorem Extending.guarded (hx : Extending x) : Balanced (guarded x) := by
  intro w hw
  rw [ends_guarded]
  exact (hx w hw).imp (fun _ _ h ↦ h.balanced_setTop hw) fun _ _ h f hi ↦
    (h f hi).balanced_setTop hw

theorem balanced_machine : Balanced machine :=
  fun w _ ↦ .refl w

theorem balanced_intern (s : String) : Balanced (intern s) :=
  fun _ _ ↦ ⟨rfl, rfl, rfl⟩

/-- What is pushed and taken off again leaves the stack as it was. -/
theorem balanced_push_popValue (v : Value) : Balanced (do push v; popValue) := by
  intro w hw
  have htop : (w.binding.machine.push v).top ≠ 0 := by
    show (w.binding.machine.stack.push v).size - w.binding.machine.base ≠ 0
    have := hw.base_le
    rw [Array.size_push]
    omega
  rw [ends_bind, ends_push, popValue, ends_updateMachine, Machine.popValue, if_neg htop]
  exact ⟨rfl, Array.pop_push, rfl⟩

end Exec

/-! ### Calls of what has just been pushed -/

namespace Machine

end Machine

namespace World

/-- A value to call and arguments for it have been pushed. -/
structure Offers (w : World) (f : Value) (args : List Value) (w₁ : World) : Prop where
  frames : w₁.binding.machine.frames = w.binding.machine.frames
  stack : w₁.binding.machine.stack.toList = w.binding.machine.stack.toList ++ f :: args
  settings : w₁.binding.settings = w.binding.settings

variable {w w₁ w' : World} {f : Value} {args : List Value}

theorem Offers.extends (h : w.Offers f args w₁) : w.Extends w₁ :=
  ⟨h.frames, ⟨_, h.stack⟩, h.settings⟩

theorem Offers.size (h : w.Offers f args w₁) :
    w₁.binding.machine.stack.size = w.binding.machine.stack.size + (args.length + 1) := by
  have hlength := congrArg List.length h.stack
  rwa [List.length_append, List.length_cons, Array.length_toList, Array.length_toList] at hlength

/-- There are values enough for the call. -/
theorem Offers.le_top (h : w.Offers f args w₁) (hw : w.Framed) :
    args.length + 1 ≤ w₁.binding.machine.top := by
  have := hw.base_le
  rw [Machine.top, h.size, Machine.base, h.frames, ← Machine.base]
  omega

/-- What is below the called value is the stack before anything was pushed. -/
theorem Offers.below (h : w.Offers f args w₁) :
    w₁.below args.length = w.binding.machine.stack.toList := by
  rw [World.below, calledAt, h.size, Nat.add_sub_cancel, h.stack, ← Array.length_toList,
    List.take_left]

theorem offers_pushAll (w : World) (f : Value) (args : List Value) :
    w.Offers f args { w with binding.machine := (w.binding.machine.push f).pushAll args } where
  frames := Machine.frames_pushAll ..
  stack := Machine.toList_pushAll _ (f :: args)
  settings := rfl

/-- One more argument. -/
theorem Offers.push (h : w.Offers f args w₁) {v : Value}
    (hframes : w'.binding.machine.frames = w₁.binding.machine.frames)
    (hstack : w'.binding.machine.stack = w₁.binding.machine.stack.push v)
    (hsettings : w'.binding.settings = w₁.binding.settings) : w.Offers f (args ++ [v]) w' where
  frames := hframes.trans h.frames
  stack := by rw [hstack, Array.toList_push, h.stack, List.append_assoc, List.cons_append]
  settings := hsettings.trans h.settings

theorem Offers.extends_of_yields (h : w.Offers f args w₁) {run : Runner} {nresults : Option Nat}
    {k : Nat} (hw' : w₁.Yields run args.length nresults k w') : w.Extends w' where
  frames := hw'.frames.trans h.frames
  settings := hw'.settings.trans h.settings
  stack := by
    obtain ⟨c, w₂, n, w₃, -, -, hstack⟩ := hw'.results
    exact ⟨_, h.below ▸ hstack⟩

theorem Offers.balanced_of_aborts (h : w.Offers f args w₁) (hw : w.Framed) {e : Failure}
    (hw' : w₁.Aborts args.length (.failure e) w') : w.Balanced w' where
  frames := (Returns.keeps hw'.leaves).frames.trans h.frames
  settings := (Returns.settings hw'.leaves).trans h.settings
  stack := Array.toList_inj.1 (h.below ▸ hw'.failed e rfl (h.le_top hw))

theorem Offers.balanced_of_restores (h : w.Offers f args w₁) (hw : w.Framed)
    (hw' : w₁.Restores args.length w') : w.Balanced w' where
  frames := hw'.frames.trans h.frames
  settings := hw'.settings.trans h.settings
  stack := by
    have hstack := hw'.stack
    rw [Nat.min_eq_left (h.le_top hw)] at hstack
    exact Array.toList_inj.1 (h.below ▸ hstack)

end World

namespace Exec

variable {run : Runner} {w w₁ : World} {f : Value} {args vs : List Value}

theorem ends_call_of_offers (h : w.Offers f args w₁) (hw : w.Framed)
    (hrun : ∀ c, Disciplined (run c)) (nresults : Option Nat) :
    Ends (call run args.length nresults) (fun _ w' ↦ w.Extends w')
      (fun i w' ↦ ∀ e, i = .failure e → w.Extends w') w₁ := by
  refine (ends_call (h.extends.framed hw) hrun nresults).imp
    (fun _ _ h' ↦ h.extends_of_yields h'.2) fun i w' h' e hi ↦ ?_
  subst hi
  exact (h.balanced_of_aborts hw h').extends

theorem ends_tryCall_of_offers (h : w.Offers f args w₁) (hw : w.Framed)
    (hrun : ∀ c, Disciplined (run c)) (nresults : Option Nat) :
    Ends (tryCall run args.length nresults) (fun _ w' ↦ w.Extends w')
      (fun i w' ↦ (∃ e, i = .failure e) ∧ w.Extends w' ∨ i = .exhausted) w₁ := by
  refine (ends_tryCall (h.extends.framed hw) hrun args.length nresults).imp
    (fun _ _ h' ↦ h.extends_of_yields h'.2) fun i w' h' ↦ ?_
  rcases h' with ⟨hi, h'⟩ | ⟨rfl, -⟩
  · exact .inl ⟨hi, (h.balanced_of_restores hw h').extends⟩
  · exact .inr rfl

section Calls

variable (hrun : ∀ c, Disciplined (run c))

include hrun

/-- **A call by value leaves the stack exactly as it was.** -/
theorem balanced_callFunction (f : Value) (args : List Value) :
    Balanced (callFunction run f args) := by
  refine Extending.guarded fun w hw ↦ ?_
  rw [ends_bind, ends_push, ends_bind, ends_modifyMachine, ends_bind]
  exact (ends_call_of_offers (w.offers_pushAll f args) hw hrun none).imp (fun _ _ h ↦ h) fun _ _ h ↦ h

theorem balanced_callMetamethod (handler : Value) (args : List Value) :
    Balanced (callMetamethod run handler args) :=
  (balanced_callFunction hrun handler args).bind fun _ ↦ .pure _

theorem balanced_indexFrom (fuel : Nat) (obj k : Value) : Balanced (indexFrom run fuel obj k) := by
  induction fuel generalizing obj with
  | zero => exact .throw _
  | succ fuel ih =>
    rw [indexFrom]
    refine balanced_machine.bind fun m ↦ .ite (fun _ ↦ .pure _) fun _ ↦ ?_
    split
    · exact .pure _
    · exact .throw _
    · exact balanced_callMetamethod hrun _ _
    · exact ih _

theorem balanced_followNames (names : List String) (v : Value) :
    Balanced (followNames run names v) := by
  induction names generalizing v with
  | nil => exact .pure _
  | cons name rest ih =>
    exact .ite (fun _ ↦ .pure _) fun _ ↦ (balanced_intern name).bind fun _ ↦
      (balanced_indexFrom hrun _ _ _).bind fun _ ↦ ih _

/-- The value at a global path, pushed and taken off again. -/
theorem balanced_loadGlobal_popValue (path : String) :
    Balanced (do loadGlobal run path; popValue) := by
  have hload : (do loadGlobal run path; popValue) = (machine >>= fun m ↦
      followNames run (globalNames path) (.table m.globals) >>= fun v ↦ do push v; popValue) := by
    simp only [loadGlobal, bind_assoc]
  rw [hload]
  exact balanced_machine.bind fun _ ↦ (balanced_followNames hrun _ _).bind balanced_push_popValue

end Calls

end Exec

end ObjectBridge
