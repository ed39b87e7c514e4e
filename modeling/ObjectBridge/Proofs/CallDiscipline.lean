import ObjectBridge.Proofs.Frames

/-!
# What a call does to the stack

A call takes the called value and its arguments off the stack and leaves results in their place. The
callee begins in a frame that holds its arguments, after the called value itself if that is no function
(`World.Entered`), and from the values of its frame at the end the call takes those that it leaves
(`World.Yields`). A call that fails leaves the stack below the called value, and one that panics at least
that (`World.Aborts`). A protected call turns panics into failures and then does what a failed call does
(`Exec.ends_tryCall`).

All this holds for whatever is called, as long as it keeps to its frame.
-/

namespace ObjectBridge

/-! ### The stack as a list -/

namespace Machine

/-- The values of the current frame, bottom up. -/
def frame (m : Machine) : List Value :=
  m.stack.toList.drop m.base

variable (m : Machine)

theorem toList_truncate (size : Nat) : (m.truncate size).stack.toList = m.stack.toList.take size := by
  simp [truncate]

theorem toList_pushAll (vs : List Value) :
    (m.pushAll vs).stack.toList = m.stack.toList ++ vs := by
  induction vs generalizing m with
  | nil => simp [pushAll]
  | cons v vs ih =>
    have hpush : (m.push v).stack.toList = m.stack.toList ++ [v] := Array.toList_push ..
    rw [show m.pushAll (v :: vs) = (m.push v).pushAll vs from rfl, ih, hpush, List.append_assoc]
    rfl

theorem toList_resize (size : Nat) : (m.resize size).stack.toList =
    m.stack.toList.take size ++ List.replicate (size - m.stack.size) .nil := by
  rw [resize]
  split
  · rename_i h
    simp [Nat.sub_eq_zero_of_le h]
  · rename_i h
    simp only [Array.toList_append, Array.toList_replicate]
    rw [List.take_of_length_le (by rw [Array.length_toList]; omega)]

theorem frames_pushAll (vs : List Value) : (m.pushAll vs).frames = m.frames := by
  induction vs generalizing m with
  | nil => rfl
  | cons v vs ih => exact ih (m.push v)

theorem topValues_eq (n : Nat) : m.topValues n = m.stack.toList.drop (m.stack.size - n) := by
  rw [topValues, Array.toList_extract, List.extract_eq_take_drop]
  exact List.take_of_length_le (by simp)

/-- Stacks have a prefix in common if they have the values of its positions in common. -/
theorem take_eq_iff {m m' : Machine} {n : Nat} :
    m'.stack.toList.take n = m.stack.toList.take n ↔ ∀ i < n, m'.stack[i]? = m.stack[i]? := by
  constructor
  · intro h i hi
    have hget := congrArg (·[i]?) h
    simpa only [List.getElem?_take, if_pos hi, Array.getElem?_toList] using hget
  · intro h
    refine List.ext_getElem? fun i ↦ ?_
    rw [List.getElem?_take, List.getElem?_take]
    split
    · rename_i hi
      rw [Array.getElem?_toList, Array.getElem?_toList, h i hi]
    · rfl

end Machine

/-- As many values as are wanted, those missing filled up with nil. -/
def fitted (wanted : Option Nat) (vs : List Value) : List Value :=
  match wanted with
  | some n => vs.take n ++ List.replicate (n - vs.length) .nil
  | none => vs

namespace World

variable (w : World)

/-- The position of the value that a call with so many arguments takes as called. -/
def calledAt (nargs : Nat) : Nat :=
  w.binding.machine.stack.size - (nargs + 1)

/-- The values below the called one. -/
def below (nargs : Nat) : List Value :=
  w.binding.machine.stack.toList.take (w.calledAt nargs)

/-- The called value. -/
def called (nargs : Nat) : Value :=
  w.binding.machine.stack[w.calledAt nargs]?.getD .nil

/-- The arguments of a call. -/
def arguments (nargs : Nat) : List Value :=
  w.binding.machine.stack.toList.drop (w.calledAt nargs + 1)

/-- The arguments that a callee finds: a called value that is no function is the first of them. -/
def passed (nargs : Nat) : List Value :=
  if (w.binding.machine.callable? (w.called nargs)).isSome then w.arguments nargs
  else w.called nargs :: w.arguments nargs

/-- How a callee begins. -/
structure Entered (w : World) (nargs : Nat) (c : Callable) (w₁ : World) : Prop where
  calls : (Exec.flushed w).Calls (w.calledAt nargs) c
  frames : w₁.binding.machine.frames = (w.calledAt nargs + 1) :: w.binding.machine.frames
  below : w₁.binding.machine.stack.toList.take (w.calledAt nargs) = w.below nargs
  frame : w₁.binding.machine.frame = w.passed nargs
  size_lt : w.calledAt nargs < w₁.binding.machine.stack.size
  depth_lt : w.binding.machine.frames.length < w.binding.settings.maxDepth
  settings : w₁.binding.settings = w.binding.settings

/-- What a call comes to that yields a number of results: the callee has ended in some world, and the
results are the values on top of its frame, as many as it claimed and had, cut or filled up with nil to
the wanted number. -/
structure Yields (run : Runner) (w : World) (nargs : Nat) (nresults : Option Nat) (k : Nat)
    (w' : World) : Prop where
  frames : w'.binding.machine.frames = w.binding.machine.frames
  settings : w'.binding.settings = w.binding.settings
  results : ∃ c w₁ n w₂, w.Entered nargs c w₁ ∧ (run c).outcome w₁ = (.ok n, w₂) ∧
    w'.binding.machine.stack.toList = w.below nargs ++ fitted nresults
      (w₂.binding.machine.frame.drop
        (w₂.binding.machine.frame.length - min n w₂.binding.machine.frame.length))
  count : w'.binding.machine.stack.size = w.calledAt nargs + k

/-- What a call comes to that is interrupted. A failure leaves the stack below the called value; too
few values are left as they are. -/
structure Aborts (w : World) (nargs : Nat) (i : Interrupt) (w' : World) : Prop where
  leaves : w.Leaves i w'
  below : nargs + 1 ≤ w.binding.machine.top →
    w'.binding.machine.stack.toList.take (w.calledAt nargs) = w.below nargs
  failed : ∀ f, i = .failure f → nargs + 1 ≤ w.binding.machine.top →
    w'.binding.machine.stack.toList = w.below nargs
  refused : w.binding.machine.top < nargs + 1 →
    i = .failure .tooFewValues ∧ w'.binding.machine.stack = w.binding.machine.stack

end World

namespace Exec

variable {w : World}

@[simp]
theorem stack_flushed : (flushed w).binding.machine.stack = w.binding.machine.stack := by
  obtain ⟨tables, hmachine, -⟩ := machine_flushed w
  rw [hmachine]

@[simp]
theorem frames_flushed : (flushed w).binding.machine.frames = w.binding.machine.frames := by
  obtain ⟨tables, hmachine, -⟩ := machine_flushed w
  rw [hmachine]

@[simp]
theorem callable?_flushed (v : Value) :
    (flushed w).binding.machine.callable? v = w.binding.machine.callable? v := by
  obtain ⟨tables, hmachine, -⟩ := machine_flushed w
  rw [hmachine]
  rfl

@[simp]
theorem settings_flushed : (flushed w).binding.settings = w.binding.settings :=
  rfl

theorem returns_flushed (hw : w.Framed) : w.Returns (flushed w) :=
  ⟨.of_stack hw.base_le frames_flushed stack_flushed, rfl⟩

@[simp]
theorem top_flushed : (flushed w).binding.machine.top = w.binding.machine.top := by
  rw [Machine.top, Machine.base, stack_flushed, frames_flushed]
  rfl

@[simp]
theorem calledAt_flushed {nargs : Nat} : (flushed w).calledAt nargs = w.calledAt nargs := by
  rw [World.calledAt, stack_flushed, World.calledAt]

@[simp]
theorem below_flushed {nargs : Nat} : (flushed w).below nargs = w.below nargs := by
  rw [World.below, stack_flushed, calledAt_flushed, World.below]

@[simp]
theorem passed_flushed {nargs : Nat} : (flushed w).passed nargs = w.passed nargs := by
  rw [World.passed, World.called, World.arguments, stack_flushed, calledAt_flushed,
    callable?_flushed]
  rfl

end Exec

/-! ### Entering a callee -/

namespace World

variable {w w₁ : World} {nargs : Nat}

theorem base_le_calledAt (hn : nargs + 1 ≤ w.binding.machine.top) :
    w.binding.machine.base ≤ w.calledAt nargs := by
  rw [calledAt]
  rw [Machine.top] at hn
  omega

theorem calledAt_lt (hn : nargs + 1 ≤ w.binding.machine.top) :
    w.calledAt nargs < w.binding.machine.stack.size := by
  rw [calledAt]
  rw [Machine.top] at hn
  omega

/-- The frame that a call opens is in order, above that of the caller. -/
theorem Entered.framed {c : Callable} (h : w.Entered nargs c w₁) (hw : w.Framed)
    (hn : nargs + 1 ≤ w.binding.machine.top) : w₁.Framed where
  sorted := by
    rw [h.frames, List.pairwise_cons]
    refine ⟨fun f hf ↦ ?_, hw.sorted⟩
    exact Nat.le_trans (hw.le_base hf) (Nat.le_trans (base_le_calledAt hn) (Nat.le_succ _))
  base_le := by
    rw [Machine.base, h.frames]
    exact h.size_lt
  depth_le := by
    rw [h.frames, h.settings]
    exact h.depth_lt

end World

namespace World

variable {w : World} {nargs : Nat}

/-- Above the values below it are the called value and the arguments. -/
theorem drop_calledAt (h : w.calledAt nargs < w.binding.machine.stack.size) :
    w.binding.machine.stack.toList.drop (w.calledAt nargs) = w.called nargs :: w.arguments nargs := by
  have hcalled : w.called nargs = w.binding.machine.stack.toList[w.calledAt nargs] := by
    rw [called, Array.getElem?_eq_getElem h, Option.getD_some, Array.getElem_toList]
  rw [arguments, hcalled, List.getElem_cons_drop]

theorem length_below (h : w.calledAt nargs < w.binding.machine.stack.size) :
    (w.below nargs).length = w.calledAt nargs := by
  rw [below, List.length_take, Array.length_toList]
  omega

/-- Only the values below the called one are left, and the frames are as they were. -/
theorem Returns.of_below {w' : World} (hn : nargs + 1 ≤ w.binding.machine.top)
    (hstack : w'.binding.machine.stack.toList.take (w.calledAt nargs) = w.below nargs)
    (hframes : w'.binding.machine.frames = w.binding.machine.frames)
    (hsettings : w'.binding.settings = w.binding.settings) : w.Returns w' where
  keeps.frames := hframes
  keeps.base_le := by
    have hlength := congrArg List.length hstack
    rw [List.length_take, length_below (calledAt_lt hn), Array.length_toList] at hlength
    have := base_le_calledAt hn
    omega
  keeps.kept i hi := Machine.take_eq_iff.1 hstack i (Nat.lt_of_lt_of_le hi (base_le_calledAt hn))
  settings := hsettings

/-- A failure that leaves the values below the called one. -/
theorem Aborts.of_below {w' : World} (hn : nargs + 1 ≤ w.binding.machine.top)
    (hstack : w'.binding.machine.stack.toList = w.below nargs)
    (hframes : w'.binding.machine.frames = w.binding.machine.frames)
    (hsettings : w'.binding.settings = w.binding.settings) (f : Failure) :
    w.Aborts nargs (.failure f) w' := by
  have htake : w'.binding.machine.stack.toList.take (w.calledAt nargs) = w.below nargs := by
    rw [hstack, List.take_of_length_le (Nat.le_of_eq (length_below (calledAt_lt hn)))]
  exact
    { leaves := Returns.of_below hn htake hframes hsettings
      below := fun _ ↦ htake
      failed := fun _ _ _ ↦ hstack
      refused := fun h ↦ by omega }

/-- What unwinds through a call that has found its callee. -/
theorem Aborts.of_unwinding {w' : World} {i : Interrupt} (hn : nargs + 1 ≤ w.binding.machine.top)
    (hi : ∀ f, i ≠ .failure f) (hleaves : w.Leaves i w')
    (hbelow : w'.binding.machine.stack.toList.take (w.calledAt nargs) = w.below nargs) :
    w.Aborts nargs i w' where
  leaves := hleaves
  below _ := hbelow
  failed f h := absurd h (hi f)
  refused h := by omega

variable {w₁ w₂ : World} {c : Callable}

theorem Entered.base (h : w.Entered nargs c w₁) :
    w₁.binding.machine.base = w.calledAt nargs + 1 := by
  rw [Machine.base, h.frames, List.headD_cons]

/-- What a callee leaves alone in its frame is what is below the called value, and more. -/
theorem Entered.take_below (h : w.Entered nargs c w₁)
    (hkept : ∀ i < w₁.binding.machine.base, w₂.binding.machine.stack[i]? =
      w₁.binding.machine.stack[i]?) :
    w₂.binding.machine.stack.toList.take (w.calledAt nargs) = w.below nargs := by
  rw [← h.below]
  exact Machine.take_eq_iff.2 fun i hi ↦ hkept i (h.base ▸ Nat.lt_succ_of_lt hi)

/-- The frame that a call opens is above that of the caller. -/
theorem Entered.escapes (h : w.Entered nargs c w₁) (hw : w.Framed)
    (hn : nargs + 1 ≤ w.binding.machine.top) : w.Escapes w₁ where
  framed := h.framed hw hn
  frames := h.frames ▸ List.suffix_cons ..
  kept i hi := Machine.take_eq_iff.1 h.below i (Nat.lt_of_lt_of_le hi (base_le_calledAt hn))
  settings := h.settings

end World

namespace Exec

variable {w : World} {nargs : Nat}

/-- Finding the callee leaves the stack as it is or puts the handler below the called value; what
cannot be called goes, with all above it. -/
theorem ends_resolveCallable (h : w.calledAt nargs < w.binding.machine.stack.size) :
    Ends (resolveCallable (w.calledAt nargs))
      (fun c w₁ ↦ w.Calls (w.calledAt nargs) c ∧ ∃ stack v,
        w₁ = { w with binding.machine.stack := stack } ∧
          stack.toList = w.below nargs ++ v :: w.passed nargs)
      (fun i w₁ ↦ (∃ f, i = .failure f) ∧
        w₁ = { w with binding.machine := w.binding.machine.truncate (w.calledAt nargs) }) w := by
  have hdrop := World.drop_calledAt h
  simp only [resolveCallable, ends_bind, ends_machine]
  split
  · rename_i c hc
    refine ⟨.inl hc, w.binding.machine.stack, w.called nargs, rfl, ?_⟩
    rw [World.passed, World.called, hc, Option.isSome_some, if_pos rfl, ← World.called, ← hdrop,
      World.below, List.take_append_drop]
  · rename_i hc
    split
    · rename_i c hhandler
      refine ⟨.inr ⟨hc, hhandler⟩, _, w.binding.machine.metafield (w.called nargs) "__call", rfl, ?_⟩
      have hinsert (v : Value) : (w.binding.machine.stack.insertIdxIfInBounds (w.calledAt nargs)
          v).toList = w.below nargs ++ v :: w.called nargs :: w.arguments nargs := by
        have hinsert := insertIdx_eq_take_append_drop (l := w.binding.machine.stack.toList)
          (Nat.le_of_lt h) v
        rw [← World.below, hdrop] at hinsert
        simpa [Array.insertIdxIfInBounds, Nat.le_of_lt h] using hinsert
      rw [hinsert, World.passed, World.called, hc]
      rfl
    · exact ⟨⟨_, rfl⟩, rfl⟩

/-- **How a callee begins**: in a frame that holds what is passed to it, above the values below the
called one. A call that is refused leaves these values, unless there were too few: then it leaves
all. -/
theorem ends_enter (hw : w.Framed) (nargs : Nat) :
    Ends (enter nargs)
      (fun r w₁ ↦ nargs + 1 ≤ w.binding.machine.top ∧ r.1 = w.calledAt nargs ∧
        w.Entered nargs r.2 w₁)
      (fun i w₁ ↦ w.Aborts nargs i w₁) w := by
  rw [enter, ends_bind, ends_flushPins, ends_bind, ends_machine, top_flushed]
  split
  · rename_i htop
    exact ⟨returns_flushed hw, fun h ↦ by omega, fun _ _ h ↦ by omega, fun _ ↦ ⟨rfl, stack_flushed⟩⟩
  · rename_i htop
    have hn : nargs + 1 ≤ w.binding.machine.top := by omega
    have hlt := World.calledAt_lt (w := flushed w) (top_flushed ▸ hn)
    have hat : (flushed w).binding.machine.stack.size - nargs - 1 = (flushed w).calledAt nargs :=
      Nat.sub_sub ..
    simp only [hat, ends_bind]
    refine (ends_resolveCallable hlt).imp (fun c w₁ h₁ ↦ ?_) fun i w₁ h₁ ↦ ?_
    · obtain ⟨hcalls, stack, v, rfl, hstack⟩ := h₁
      have hlength := World.length_below hlt
      rw [below_flushed, calledAt_flushed] at hlength
      rw [below_flushed, passed_flushed] at hstack
      rw [calledAt_flushed] at hcalls ⊢
      have htake : stack.toList.take (w.calledAt nargs) = w.below nargs := by
        rw [hstack, ← hlength, List.take_left]
      simp only [ends_bind, ends_binding, ends_machine]
      split
      · simp only [ends_bind, ends_modifyMachine, ends_fail]
        refine .of_below hn ?_ ?_ ?_ _
        · rw [Machine.toList_truncate]
          exact htake
        · exact frames_flushed
        · rfl
      · rename_i hdepth
        refine ⟨hn, rfl, hcalls, congrArg _ frames_flushed, htake, ?_, ?_, ?_, rfl⟩
        · show stack.toList.drop (w.calledAt nargs + 1) = _
          rw [hstack, ← hlength, List.drop_append]
          simp
        · show w.calledAt nargs < stack.size
          rw [← Array.length_toList, hstack, List.length_append, hlength]
          simp
        · rw [← frames_flushed]
          exact Nat.lt_of_not_le hdepth
    · obtain ⟨⟨f, rfl⟩, rfl⟩ := h₁
      refine .of_below hn ?_ ?_ ?_ f
      · rw [Machine.toList_truncate]
        exact below_flushed
      · exact frames_flushed
      · rfl

end Exec

/-! ### Results -/

@[simp]
theorem length_fitted (n : Nat) (vs : List Value) : (fitted (some n) vs).length = n := by
  rw [fitted, List.length_append, List.length_take, List.length_replicate]
  omega

/-- If no number is wanted then as many as there are. -/
theorem fitted_getD (wanted : Option Nat) (vs : List Value) :
    fitted (some (wanted.getD vs.length)) vs = fitted wanted vs := by
  cases wanted with
  | some n => rfl
  | none => simp [fitted]

namespace Machine

variable (m : Machine)

/-- What placing results makes of a stack. -/
theorem toList_place {pos : Nat} (hpos : pos ≤ m.stack.size) (n : Nat) (vs : List Value) :
    (((m.truncate pos).pushAll (vs.take n)).resize (pos + n)).stack.toList =
      m.stack.toList.take pos ++ fitted (some n) vs := by
  have hlength : (m.stack.toList.take pos ++ vs.take n).length = pos + min n vs.length := by
    rw [List.length_append, List.length_take, List.length_take, Array.length_toList]
    omega
  rw [toList_resize, ← Array.length_toList, toList_pushAll, toList_truncate,
    List.take_of_length_le (by omega), hlength, fitted, List.append_assoc]
  congr 3
  omega

/-- The values on top of a frame. -/
theorem topValues_eq_drop {pos n : Nat} (hpos : pos ≤ m.stack.size) (hn : n ≤ m.stack.size - pos) :
    m.topValues n = (m.stack.toList.drop pos).drop (m.stack.size - pos - n) := by
  rw [topValues_eq, List.drop_drop]
  congr 1
  omega

end Machine

namespace Exec

variable {w : World}

/-- Placing results puts those that a callee claims and has above what is below the called value, as
many as are wanted. It can be interrupted only by a panic. -/
theorem ends_placeResults {pos : Nat} (hpos : pos < w.binding.machine.stack.size) (n : Nat)
    (wanted : Option Nat) :
    Ends (placeResults pos n wanted)
      (fun k w' ↦ w'.binding.machine.frames = w.binding.machine.frames ∧
        w'.binding.settings = w.binding.settings ∧
        w'.binding.machine.stack.size = pos + k ∧
        w'.binding.machine.stack.toList = w.binding.machine.stack.toList.take pos ++
          fitted wanted ((w.binding.machine.stack.toList.drop (pos + 1)).drop
            (w.binding.machine.stack.size - (pos + 1) -
              min n (w.binding.machine.stack.size - (pos + 1)))))
      (fun i w' ↦ (∃ text, i = .panic text) ∧
        w'.binding.machine.frames = w.binding.machine.frames ∧
        w'.binding.settings = w.binding.settings ∧
        w'.binding.machine.stack.toList.take pos = w.binding.machine.stack.toList.take pos) w := by
  rw [← Machine.topValues_eq_drop _ hpos (Nat.min_le_right ..)]
  have hlength : (w.binding.machine.topValues
      (min n (w.binding.machine.stack.size - (pos + 1)))).length =
      min n (w.binding.machine.stack.size - (pos + 1)) := by
    rw [Machine.topValues_eq, List.length_drop, Array.length_toList]
    omega
  simp only [placeResults, resizeStack, ends_bind, ends_machine, ends_modifyMachine]
  refine ends_reserve _ _ ⟨?_, rfl, ?_, ?_⟩ fun text ↦ ⟨⟨text, rfl⟩, ?_, rfl, ?_⟩
  · exact Machine.frames_pushAll _ _
  · exact Machine.size_resize _
  · rw [← fitted_getD, hlength]
    exact Machine.toList_place _ (Nat.le_of_lt hpos) _ _
  · exact Machine.frames_pushAll _ _
  · rw [Machine.toList_pushAll, Machine.toList_truncate, List.take_append_of_le_length,
      List.take_take, Nat.min_self]
    rw [List.length_take, Array.length_toList]
    omega

/-! ### Calls -/

variable {run : Runner} {nargs : Nat}

/-- A callee that has ended leaves its results in the place of the called value. -/
theorem ends_leave (hw : w.Framed) (hn : nargs + 1 ≤ w.binding.machine.top) {c : Callable}
    {w₁ w₂ : World} (hentered : w.Entered nargs c w₁) {n : Nat}
    (h : (run c).outcome w₁ = (.ok n, w₂)) (hreturns : w₁.Returns w₂) (nresults : Option Nat) :
    Ends (do closeFrame; placeResults (w.calledAt nargs) n nresults)
      (fun k w' ↦ nargs + 1 ≤ w.binding.machine.top ∧ w.Yields run nargs nresults k w')
      (fun i w' ↦ w.Aborts nargs i w') w₂ := by
  -- The frame on top is still that of the callee, and so the results lie above the called value.
  have hbase : w₂.binding.machine.base = w.calledAt nargs + 1 :=
    hreturns.keeps.base.trans hentered.base
  have hbelow := hentered.take_below hreturns.keeps.kept
  have hpos : w.calledAt nargs < w₂.binding.machine.stack.size := by
    have := hreturns.keeps.base_le
    rwa [hentered.base] at this
  have htail : w₂.binding.machine.frames.tail = w.binding.machine.frames := by
    rw [hreturns.keeps.frames, hentered.frames, List.tail_cons]
  have hsettings := hreturns.settings.trans hentered.settings
  rw [ends_bind, ends_closeFrame]
  have hplace := ends_placeResults (w := w₂.withFrames w₂.binding.machine.frames.tail) hpos n nresults
  refine hplace.imp (fun k w' h' ↦ ?_) fun i w' h' ↦ ?_
  · obtain ⟨hframes, hsettings', hsize, hstack⟩ := h'
    refine ⟨hn, hframes.trans htail, hsettings'.trans hsettings, ?_, hsize⟩
    refine ⟨c, w₁, n, w₂, hentered, h, ?_⟩
    rw [Machine.frame, hbase, List.length_drop, Array.length_toList, ← hbelow]
    exact hstack
  · obtain ⟨⟨text, rfl⟩, hframes, hsettings', hstack⟩ := h'
    have hprefix := hstack.trans hbelow
    have hreturns' := World.Returns.of_below hn hprefix (hframes.trans htail)
      (hsettings'.trans hsettings)
    exact .of_unwinding hn (fun _ h ↦ by cases h) (hreturns'.leaves hw _) hprefix

/-- A callee that is interrupted is taken off with its frame if it fails; other interruptions go on as
they are. -/
theorem ends_unwind (hw : w.Framed) (hn : nargs + 1 ≤ w.binding.machine.top) {c : Callable}
    {w₁ w₂ : World} (hentered : w.Entered nargs c w₁) {i : Interrupt} (hleaves : w₁.Leaves i w₂)
    {Q : Nat → World → Prop} :
    Ends (match i with
      | .failure f => do
        closeFrame
        modifyMachine (·.truncate (w.calledAt nargs))
        throw (.failure f)
      | i => throw i) Q (fun i w' ↦ w.Aborts nargs i w') w₂ := by
  have hw₁ := hentered.framed hw hn
  have hescapes := hleaves.escapes hw₁
  have hout := (hentered.escapes hw hn).trans hescapes
  have hbelow := hentered.take_below hescapes.kept
  cases i with
  | failure f =>
    -- A failure comes back to the frame of the callee, so closing one frame restores all.
    have hreturns : w₁.Returns w₂ := hleaves
    simp only [ends_bind, ends_closeFrame, ends_modifyMachine, ends_throw]
    refine .of_below hn ?_ ?_ ?_ f
    · rw [Machine.toList_truncate]
      exact hbelow
    · show w₂.binding.machine.frames.tail = _
      rw [hreturns.keeps.frames, hentered.frames, List.tail_cons]
    · exact hreturns.settings.trans hentered.settings
  | panic text => exact World.Aborts.of_unwinding hn (fun _ h ↦ by cases h) hout hbelow
  | exhausted => exact World.Aborts.of_unwinding hn (fun _ h ↦ by cases h) hout hbelow

/-- **What a call does to the stack**, whatever it calls that keeps to its frame. -/
theorem ends_call (hw : w.Framed) (hrun : ∀ c, Disciplined (run c)) (nresults : Option Nat) :
    Ends (call run nargs nresults)
      (fun k w' ↦ nargs + 1 ≤ w.binding.machine.top ∧ w.Yields run nargs nresults k w')
      (fun i w' ↦ w.Aborts nargs i w') w := by
  rw [call, ends_bind]
  refine (ends_enter hw nargs).imp (fun r w₁ h₁ ↦ ?_) fun _ _ h ↦ h
  obtain ⟨pos, c⟩ := r
  obtain ⟨hn, rfl, hentered⟩ := h₁
  have hcallee := hrun c w₁ (hentered.framed hw hn)
  rw [ends_bind, ends_tryCatch]
  refine ends_iff.2 ⟨fun n w₂ h₂ ↦ ?_, fun i w₂ h₂ ↦ ?_⟩
  · exact ends_leave hw hn hentered h₂ (hcallee.ok h₂) nresults
  · exact ends_unwind hw hn hentered (hcallee.error h₂)

end Exec

/-! ### Protected calls -/

namespace World

variable {w w' : World} {nargs : Nat}

theorem Yields.returns {run : Runner} {nresults : Option Nat} {k : Nat}
    (hn : nargs + 1 ≤ w.binding.machine.top) (h : w.Yields run nargs nresults k w') :
    w.Returns w' := by
  refine .of_below hn ?_ h.frames h.settings
  obtain ⟨c, w₁, n, w₂, -, -, hstack⟩ := h.results
  rw [hstack, ← length_below (calledAt_lt hn), List.take_left]

/-- What a protected call leaves that fails: the frames, and of the stack what is below the called
value, or below the current frame when there are too few values. -/
structure Restores (w : World) (nargs : Nat) (w' : World) : Prop where
  frames : w'.binding.machine.frames = w.binding.machine.frames
  settings : w'.binding.settings = w.binding.settings
  stack : w'.binding.machine.stack.toList = w.binding.machine.stack.toList.take
    (w.binding.machine.stack.size - min (nargs + 1) w.binding.machine.top)

theorem base_le_restored (hw : w.Framed) (nargs : Nat) : w.binding.machine.base ≤
    w.binding.machine.stack.size - min (nargs + 1) w.binding.machine.top := by
  have := hw.base_le
  rw [Machine.top]
  omega

theorem Restores.returns (hw : w.Framed) (h : w.Restores nargs w') : w.Returns w' where
  keeps.frames := h.frames
  keeps.base_le := by
    have hlength := congrArg List.length h.stack
    rw [List.length_take, Array.length_toList, Array.length_toList] at hlength
    have := base_le_restored hw nargs
    omega
  keeps.kept i hi := by
    refine Machine.take_eq_iff.1 ?_ i (Nat.lt_of_lt_of_le hi (base_le_restored hw nargs))
    rw [h.stack, List.take_take, Nat.min_self]
  settings := h.settings

/-- What is below the called value survives whatever interrupts a call. -/
theorem Aborts.take_restored {i : Interrupt} (h : w.Aborts nargs i w') :
    w'.binding.machine.stack.toList.take
        (w.binding.machine.stack.size - min (nargs + 1) w.binding.machine.top) =
      w.binding.machine.stack.toList.take
        (w.binding.machine.stack.size - min (nargs + 1) w.binding.machine.top) := by
  by_cases hn : nargs + 1 ≤ w.binding.machine.top
  · rw [Nat.min_eq_left hn]
    exact h.below hn
  · rw [(h.refused (Nat.lt_of_not_le hn)).2]

end World

namespace Exec

variable {w : World} {run : Runner} {nargs : Nat}

/-- A call keeps to its frame if what it calls does. -/
theorem disciplined_call (hrun : ∀ c, Disciplined (run c)) (nargs : Nat) (nresults : Option Nat) :
    Disciplined (call run nargs nresults) :=
  fun _ hw ↦ (ends_call hw hrun nresults).imp (fun _ _ h ↦ h.2.returns h.1) fun _ _ h ↦ h.leaves

/-- **What a protected call does to the stack**: as much as a call that goes well, and else it restores
frames and stack, also after a panic. Only the exhaustion of the run goes through it. -/
theorem ends_tryCall (hw : w.Framed) (hrun : ∀ c, Disciplined (run c)) (nargs : Nat)
    (nresults : Option Nat) :
    Ends (tryCall run nargs nresults)
      (fun k w' ↦ nargs + 1 ≤ w.binding.machine.top ∧ w.Yields run nargs nresults k w')
      (fun i w' ↦ (∃ f, i = .failure f) ∧ w.Restores nargs w' ∨ i = .exhausted ∧ w.Escapes w') w := by
  simp only [tryCall, ends_bind, ends_machine, ends_tryCatch]
  refine (ends_call hw hrun nresults).imp (fun _ _ h ↦ h) fun i w₁ h₁ ↦ ?_
  have hescapes := h₁.leaves.escapes hw
  have hrestores : w.Restores nargs { w₁ with
      binding.machine := { w₁.binding.machine with
        frames := w₁.binding.machine.frames.drop
          (w₁.binding.machine.frames.length - w.binding.machine.frames.length) }.truncate
        (w.binding.machine.stack.size - min (nargs + 1) w.binding.machine.top) } := by
    refine ⟨(List.suffix_iff_eq_drop.1 hescapes.frames).symm, hescapes.settings, ?_⟩
    rw [Machine.toList_truncate]
    exact h₁.take_restored
  cases i with
  | failure f => exact .inl ⟨⟨f, rfl⟩, hrestores⟩
  | panic text => exact .inl ⟨⟨_, rfl⟩, hrestores⟩
  | exhausted => exact .inr ⟨rfl, hescapes⟩

theorem disciplined_tryCall (hrun : ∀ c, Disciplined (run c)) (nargs : Nat)
    (nresults : Option Nat) : Disciplined (tryCall run nargs nresults) := by
  refine fun w hw ↦ (ends_tryCall hw hrun nargs nresults).imp (fun _ _ h ↦ h.2.returns h.1)
    fun i w' h ↦ ?_
  rcases h with ⟨⟨f, rfl⟩, h⟩ | ⟨rfl, h⟩
  · exact h.returns hw
  · exact h

end Exec

end ObjectBridge
