import ObjectBridge.Proofs.Reached
import ObjectBridge.Proofs.Turns

/-!
# Calls of the bridge's own functions

A function of the bridge that is called by value begins in a frame that holds its arguments and nothing
else (`World.entering`). If it pushes its results onto that frame and ends, then the call gives these
results, and the stack and the frames are as before (`World.returning`): what is left of the call is what
the function did to the heap and to the host (`Exec.ends_callFunction`).
-/

namespace ObjectBridge

private theorem size_append_toArray (s : Array Value) (vs : List Value) :
    (s ++ vs.toArray).size = s.size + vs.length := by
  simp

namespace Machine

theorem pushAll_eq (m : Machine) (vs : List Value) :
    m.pushAll vs = { m with stack := m.stack ++ vs.toArray } := by
  obtain ⟨stack, h⟩ := m.exists_pushAll_eq vs
  have hstack : stack = m.stack ++ vs.toArray := by
    have hlist := m.toList_pushAll vs
    rw [h] at hlist
    exact Array.toList_inj.1 (hlist.trans (by simp))
  rw [h, hstack]

theorem resize_size (m : Machine) : m.resize m.stack.size = m := by
  rw [resize, if_pos (Nat.le_refl _)]
  simp

/-- Cutting what was pushed onto a stack gives the stack. -/
theorem resize_pushed {m : Machine} {s : Array Value} {vs : List Value}
    (h : m.stack = s ++ vs.toArray) : m.resize s.size = { m with stack := s } := by
  rw [resize, if_pos (by simp [h])]
  simp [h]

theorem topValues_pushed {m : Machine} {s : Array Value} {vs : List Value}
    (h : m.stack = s ++ vs.toArray) : m.topValues vs.length = vs := by
  rw [topValues_eq, h, size_append_toArray, Nat.add_sub_cancel, Array.toList_append,
    ← Array.length_toList, List.drop_left]

end Machine

namespace World

/-- The world with a value to call and arguments for it on the stack. -/
def calling (w : World) (f : Value) (args : List Value) : World :=
  { w with binding.machine.stack := w.binding.machine.stack.push f ++ args.toArray }

/-- The world in which a function begins that is called by value. -/
def entering (w : World) (f : Value) (args : List Value) : World :=
  (Exec.flushed (w.calling f args)).withFrames
    ((w.binding.machine.stack.size + 1) :: w.binding.machine.frames)

/-- A world with the stack and the frames of another. -/
def returning (w' w : World) : World :=
  { w' with
    binding.machine.stack := w.binding.machine.stack
    binding.machine.frames := w.binding.machine.frames }

variable {w : World} {f : Value} {args : List Value}

@[simp]
theorem stack_entering : (w.entering f args).binding.machine.stack =
    w.binding.machine.stack.push f ++ args.toArray :=
  Exec.stack_flushed

/-- Entering a function changes nothing in the heap but the table of pins. -/
theorem heap_entering (w : World) (f : Value) (args : List Value) :
    ∃ tables, (w.entering f args).binding.machine.heap =
      { w.binding.machine.heap with tables := tables } := by
  obtain ⟨tables, h, -⟩ := Exec.machine_flushed (w.calling f args)
  exact ⟨tables, congrArg Machine.heap h⟩

theorem offers_calling (w : World) (f : Value) (args : List Value) :
    w.Offers f args (w.calling f args) :=
  ⟨rfl, by simp [calling], rfl⟩

theorem size_calling : (w.calling f args).binding.machine.stack.size =
    w.binding.machine.stack.size + (args.length + 1) :=
  (w.offers_calling f args).size

/-- The arguments of a function are what it finds in its frame. -/
theorem valueAt_entering {n : Nat} (hn : 0 < n) (hle : n ≤ args.length) :
    (w.entering f args).binding.machine.valueAt n = args[n - 1] := by
  have hsize : (w.entering f args).binding.machine.stack.size =
      w.binding.machine.stack.size + (args.length + 1) :=
    (congrArg Array.size stack_entering).trans size_calling
  have hbase : (w.entering f args).binding.machine.base = w.binding.machine.stack.size + 1 := rfl
  rw [Machine.valueAt, Machine.position?, if_pos (by omega)]
  simp only [hbase, hsize, Int.toNat_natCast]
  rw [if_pos (by omega)]
  simp only [stack_entering]
  rw [Array.getElem?_append_right (by simp; omega)]
  have hindex : w.binding.machine.stack.size + 1 + n - 1 - (w.binding.machine.stack.push f).size =
      n - 1 := by
    rw [Array.size_push]
    omega
  rw [hindex]
  simp [show n - 1 < args.length by omega]

end World

namespace Exec

variable {w : World} {f : Value} {c : Callable} {args : List Value}

/-- A function for which there is a frame left is entered. -/
theorem ends_enter_function (hw : w.Framed) (hf : w.binding.machine.callable? f = some c)
    (hdepth : w.binding.machine.frames.length < w.binding.settings.maxDepth)
    {Q : Nat × Callable → World → Prop} {E : Interrupt → World → Prop}
    (hQ : Q (w.binding.machine.stack.size, c) (w.entering f args)) :
    Ends (enter args.length) Q E (w.calling f args) := by
  have htop := (w.offers_calling f args).le_top hw
  have hat : (flushed (w.calling f args)).binding.machine.stack.size - args.length - 1 =
      w.binding.machine.stack.size := by
    rw [stack_flushed, World.size_calling]
    omega
  have hcalled : (flushed (w.calling f args)).binding.machine.stack[w.binding.machine.stack.size]? =
      some f := by
    rw [stack_flushed, World.calling, Array.getElem?_append_left (by simp), Array.getElem?_push_size]
  have hcallable : (flushed (w.calling f args)).binding.machine.callable? f = some c :=
    (callable?_flushed f).trans hf
  have hframes : (flushed (w.calling f args)).binding.machine.frames = w.binding.machine.frames :=
    frames_flushed
  rw [enter, ends_bind, ends_flushPins, ends_bind, ends_machine, top_flushed, if_neg (by omega)]
  simp only [hat, ends_bind]
  rw [resolveCallable, ends_bind, ends_machine, hcalled, Option.getD_some]
  dsimp only
  rw [hcallable]
  simp only [ends_pure, ends_bind, ends_binding, ends_machine]
  rw [if_neg (by rw [hframes]; exact Nat.not_le_of_lt hdepth)]
  show Q _ ((flushed (w.calling f args)).withFrames
    (_ :: (flushed (w.calling f args)).binding.machine.frames))
  rw [hframes]
  exact hQ

/-- The results of a callee take the place of what is above a stack. -/
theorem ends_placeResults_pushed {s : Array Value} {called vs : List Value} (hcalled : called ≠ [])
    (hstack : w.binding.machine.stack = s ++ called.toArray ++ vs.toArray)
    (hroom : (s.size + vs.length) * stackValueBytes ≤ maxArrayBytes) {Q : Nat → World → Prop}
    {E : Interrupt → World → Prop}
    (hQ : Q vs.length { w with binding.machine.stack := s ++ vs.toArray }) :
    Ends (placeResults s.size vs.length none) Q E w := by
  have hlength := List.length_pos_iff.2 hcalled
  have hsize : w.binding.machine.stack.size = s.size + called.length + vs.length := by
    rw [hstack, size_append_toArray, size_append_toArray]
  rw [placeResults, ends_bind, ends_machine, Nat.min_eq_left (by omega)]
  simp only [Machine.topValues_pushed hstack, Option.getD_none, List.take_length, ends_bind,
    ends_modifyMachine]
  have htruncate : w.binding.machine.truncate s.size = { w.binding.machine with stack := s } := by
    rw [Machine.truncate, hstack]
    simp
  rw [htruncate, Machine.pushAll_eq, resizeStack, ends_bind, reserve, if_pos hroom]
  have hresize := Machine.resize_size { w.binding.machine with stack := s ++ vs.toArray }
  have hpushed : (s ++ vs.toArray).size = s.size + vs.length := by simp
  rw [hpushed] at hresize
  show Q _ { w with binding.machine := Machine.resize { w.binding.machine with
    stack := s ++ vs.toArray } _ }
  rw [hresize]
  exact hQ

/-- **Calling a function of the bridge by value.** If it fails, then the call fails alike, and what is left
of the call is what the function did to the host. -/
theorem ends_callFunction {b : Builtin} (hw : w.Framed)
    (hf : w.binding.machine.callable? f = some (.builtin b))
    (hdepth : w.binding.machine.frames.length < w.binding.settings.maxDepth) (fuel : Nat)
    {Q : List Value → World → Prop} {E : Interrupt → World → Prop}
    (hb : Ends b.run
      (fun n w₂ ↦ ∃ vs : List Value, n = vs.length ∧
        w₂.binding.machine.frames = (w.entering f args).binding.machine.frames ∧
        w₂.binding.machine.stack = (w.entering f args).binding.machine.stack ++ vs.toArray ∧
        (w.binding.machine.stack.size + vs.length) * stackValueBytes ≤ maxArrayBytes ∧
        Q vs (w₂.returning w))
      (fun i w₂ ↦ (∃ e, i = .failure e) ∧ ∀ w₃ : World, w₃.host = w₂.host → E i w₃)
      (w.entering f args)) :
    Ends (callFunction (runner fuel) f args) Q E w := by
  rw [callFunction, ends_guarded, ends_bind, ends_push, ends_bind, ends_modifyMachine,
    Machine.pushAll_eq, ends_bind, call, ends_bind]
  refine ends_enter_function hw hf hdepth ?_
  rw [ends_bind, ends_tryCatch, runner_builtin]
  refine hb.imp (fun n w₂ h ↦ ?_) fun i w₂ h ↦ ?_
  · obtain ⟨vs, rfl, hframes, hstack, hroom, hQ⟩ := h
    have htail : w₂.binding.machine.frames.tail = w.binding.machine.frames := by
      rw [hframes]
      rfl
    rw [ends_bind, ends_closeFrame, htail]
    have hpushed : (w₂.withFrames w.binding.machine.frames).binding.machine.stack =
        w.binding.machine.stack ++ (f :: args).toArray ++ vs.toArray := by
      show w₂.binding.machine.stack = _
      rw [hstack, World.stack_entering]
      simp
    refine ends_placeResults_pushed (List.cons_ne_nil f args) hpushed hroom ?_
    rw [ends_bind, ends_machine, ends_pure, Machine.topValues_pushed rfl]
    -- The frame of the caller ends where its stack ended.
    have hsize : w.binding.machine.base + w.binding.machine.top = w.binding.machine.stack.size := by
      have := hw.base_le
      rw [Machine.top]
      omega
    show Q vs { w₂ with
      binding.machine := Machine.resize _ (w.binding.machine.base + w.binding.machine.top) }
    rw [hsize, Machine.resize_pushed rfl]
    exact hQ
  · obtain ⟨⟨e, rfl⟩, hE⟩ := h
    rw [ends_bind, ends_closeFrame, ends_bind, ends_modifyMachine, ends_throw]
    exact hE _ rfl

/-- Calling a function of the bridge that does not fail. -/
theorem ends_callFunction_builtin {b : Builtin} (hw : w.Framed)
    (hf : w.binding.machine.callable? f = some (.builtin b))
    (hdepth : w.binding.machine.frames.length < w.binding.settings.maxDepth) (fuel : Nat)
    {Q : List Value → World → Prop} {E : Interrupt → World → Prop}
    (hb : Ends b.run
      (fun n w₂ ↦ ∃ vs : List Value, n = vs.length ∧
        w₂.binding.machine.frames = (w.entering f args).binding.machine.frames ∧
        w₂.binding.machine.stack = (w.entering f args).binding.machine.stack ++ vs.toArray ∧
        (w.binding.machine.stack.size + vs.length) * stackValueBytes ≤ maxArrayBytes ∧
        Q vs (w₂.returning w))
      (fun _ _ ↦ False) (w.entering f args)) :
    Ends (callFunction (runner fuel) f args) Q E w :=
  ends_callFunction hw hf hdepth fuel (hb.imp (fun _ _ h ↦ h) fun _ _ h ↦ h.elim)

end Exec

end ObjectBridge
