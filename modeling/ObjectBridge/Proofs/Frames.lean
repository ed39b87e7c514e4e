import ObjectBridge.Proofs.Outcome

/-!
# Frames

Every computation runs in a frame, and the values below it belong to its callers. A computation is
`Exec.Disciplined` if it leaves these alone, whatever becomes of it, and comes back to its own frame
when it yields a value or fails (`World.Returns`). After a panic the frames it passed may still be
open (`World.Escapes`): they lie above the frame of the computation, and so does everything that
stack guards do while they unwind it, because they set the top of one of these frames.

Discipline is put together from the discipline of the parts, for which there is a rule each. In the
course of it the frames stay in order (`World.Framed`): they are nested, the innermost begins within
the stack, and there are not too many.
-/

namespace ObjectBridge

/-- Putting an item between those before it and those behind. -/
theorem insertIdx_eq_take_append_drop {α : Type} {l : List α} {i : Nat} (hi : i ≤ l.length) (a : α) :
    l.insertIdx i a = l.take i ++ a :: l.drop i := by
  induction l generalizing i with
  | nil =>
    obtain rfl : i = 0 := Nat.le_zero.1 hi
    rfl
  | cons b l ih =>
    cases i with
    | zero => rfl
    | succ i => exact congrArg (b :: ·) (ih (Nat.le_of_succ_le_succ hi))

/-! ### Machines -/

namespace Machine

/-- What a change of a machine leaves alone that is made in the current frame: the frames, and the
values below the current one. -/
structure Keeps (m m' : Machine) : Prop where
  frames : m'.frames = m.frames
  base_le : m.base ≤ m'.stack.size
  kept : ∀ i < m.base, m'.stack[i]? = m.stack[i]?

variable {m m' m'' : Machine}

theorem Keeps.base (h : m.Keeps m') : m'.base = m.base := by
  rw [Machine.base, Machine.base, h.frames]

theorem Keeps.refl (hm : m.base ≤ m.stack.size) : m.Keeps m :=
  ⟨rfl, hm, fun _ _ ↦ rfl⟩

theorem Keeps.trans (h : m.Keeps m') (h' : m'.Keeps m'') : m.Keeps m'' where
  frames := h'.frames.trans h.frames
  base_le := h.base ▸ h'.base_le
  kept i hi := (h'.kept i (h.base.symm ▸ hi)).trans (h.kept i hi)

/-- A change that does not concern stack and frames. -/
theorem Keeps.of_stack (hm : m.base ≤ m.stack.size) (hf : m'.frames = m.frames)
    (hs : m'.stack = m.stack) : m.Keeps m' :=
  ⟨hf, hs ▸ hm, fun _ _ ↦ by rw [hs]⟩

/-! ### Operations on the stack -/

theorem keeps_push (hm : m.base ≤ m.stack.size) (v : Value) : m.Keeps (m.push v) where
  frames := rfl
  base_le := by rw [push, Array.size_push]; omega
  kept i hi := by rw [push, Array.getElem?_push_lt (by omega), Array.getElem?_eq_getElem]

/-- The stack after a resize, position by position. -/
theorem getElem?_resize (size i : Nat) : (m.resize size).stack[i]? =
    if i < size then some (m.stack[i]?.getD .nil) else none := by
  rw [resize]
  split
  · rw [Array.take_eq_extract, Array.getElem?_extract]
    split
    · have hi : i < m.stack.size := by omega
      rw [if_pos (by omega), Nat.zero_add, Array.getElem?_eq_getElem hi, Option.getD_some]
    · rw [if_neg (by omega)]
  · rw [Array.getElem?_append]
    split
    · rw [if_pos (by omega), Array.getElem?_eq_getElem (by omega), Option.getD_some]
    · rw [Array.getElem?_replicate]
      split
      · rw [if_pos (by omega), Array.getElem?_eq_none (by omega), Option.getD_none]
      · rw [if_neg (by omega)]

theorem size_resize (size : Nat) : (m.resize size).stack.size = size := by
  rw [resize]
  split <;> simp <;> omega

theorem keeps_resize (hm : m.base ≤ m.stack.size) {size : Nat} (hsize : m.base ≤ size) :
    m.Keeps (m.resize size) where
  frames := rfl
  base_le := by rwa [size_resize]
  kept i hi := by
    rw [getElem?_resize, if_pos (by omega), Array.getElem?_eq_getElem (by omega), Option.getD_some]

theorem keeps_setTop (hm : m.base ≤ m.stack.size) (n : Nat) : m.Keeps (m.setTop n) :=
  keeps_resize hm (Nat.le_add_right ..)

theorem keeps_popValue (hm : m.base ≤ m.stack.size) : m.Keeps m.popValue.2 := by
  rw [popValue]
  split
  · exact .refl hm
  · rename_i hne
    rw [top] at hne
    refine ⟨rfl, ?_, fun i hi ↦ ?_⟩
    · show m.base ≤ m.stack.pop.size
      rw [Array.size_pop]
      omega
    · show m.stack.pop[i]? = _
      rw [Array.getElem?_pop, if_pos (by omega)]

/-- Indices lead to positions in the current frame only. -/
theorem base_le_position (hm : m.base ≤ m.stack.size) {idx : Int} {pos : Nat}
    (h : m.position? idx = some pos) : m.base ≤ pos := by
  rw [position?] at h
  grind

theorem keeps_remove (hm : m.base ≤ m.stack.size) (idx : Int) : m.Keeps (m.remove idx) := by
  rw [remove]
  cases hpos : m.position? idx with
  | none => exact .refl hm
  | some pos =>
    have hle := base_le_position hm hpos
    refine ⟨rfl, ?_, fun i hi ↦ ?_⟩
    · show m.base ≤ (m.stack.eraseIdxIfInBounds pos).size
      grind [Array.eraseIdxIfInBounds]
    · show (m.stack.eraseIdxIfInBounds pos)[i]? = _
      grind [Array.eraseIdxIfInBounds]

theorem keeps_replace (hm : m.base ≤ m.stack.size) (idx : Int) (v : Value) :
    m.Keeps (m.replace idx v) := by
  rw [replace]
  cases hpos : m.position? idx with
  | none => exact .refl hm
  | some pos =>
    have hle := base_le_position hm hpos
    refine ⟨rfl, ?_, fun i hi ↦ ?_⟩
    · show m.base ≤ (m.stack.setIfInBounds pos v).size
      rwa [Array.size_setIfInBounds]
    · show (m.stack.setIfInBounds pos v)[i]? = _
      rw [Array.getElem?_setIfInBounds, if_neg (by omega)]

end Machine

/-! ### Worlds -/

/-- The frames of a binding are in order: each begins no earlier than the one around it, none begins
beyond the end of the stack, and there are at most as many as the settings allow. -/
structure Binding.Framed (b : Binding) : Prop where
  sorted : b.machine.frames.Pairwise (· ≥ ·)
  base_le : b.machine.base ≤ b.machine.stack.size
  depth_le : b.machine.frames.length ≤ b.settings.maxDepth

theorem Binding.Framed.le_base {b : Binding} (hb : b.Framed) {f : Nat} (hf : f ∈ b.machine.frames) :
    f ≤ b.machine.base := by
  have hsorted := hb.sorted
  rw [Machine.base]
  cases hframes : b.machine.frames with
  | nil => simp [hframes] at hf
  | cons f' rest =>
    rw [hframes, List.pairwise_cons] at hsorted
    rw [hframes] at hf
    rcases List.mem_cons.1 hf with rfl | hf
    · exact Nat.le_refl _
    · exact hsorted.1 f hf

namespace World

/-- The frames of the binding that is called are in order. -/
def Framed (w : World) : Prop :=
  w.binding.Framed

/-- What a computation has done to stack and frames when it yields a value or fails. -/
structure Returns (w w' : World) : Prop where
  keeps : w.binding.machine.Keeps w'.binding.machine
  settings : w'.binding.settings = w.binding.settings

/-- What a computation has done to stack and frames when it is interrupted otherwise: frames that
were opened in its course may still be open. -/
structure Escapes (w w' : World) : Prop where
  framed : w'.Framed
  frames : w.binding.machine.frames <:+ w'.binding.machine.frames
  kept : ∀ i < w.binding.machine.base, w'.binding.machine.stack[i]? = w.binding.machine.stack[i]?
  settings : w'.binding.settings = w.binding.settings

/-- What a computation has done to stack and frames when it is interrupted. -/
def Leaves (w : World) (i : Interrupt) (w' : World) : Prop :=
  match i with
  | .failure _ => w.Returns w'
  | .panic _ | .exhausted => w.Escapes w'

variable {w w' w'' : World} {i : Interrupt}

theorem Returns.trans (h : w.Returns w') (h' : w'.Returns w'') : w.Returns w'' :=
  ⟨h.keeps.trans h'.keeps, h'.settings.trans h.settings⟩

theorem Returns.framed (h : w.Returns w') (hw : w.Framed) : w'.Framed where
  sorted := h.keeps.frames.symm ▸ hw.sorted
  base_le := h.keeps.base.symm ▸ h.keeps.base_le
  depth_le := by
    rw [h.keeps.frames, h.settings]
    exact hw.depth_le

theorem Returns.escapes (h : w.Returns w') (hw : w.Framed) : w.Escapes w' where
  framed := h.framed hw
  frames := h.keeps.frames.symm ▸ List.suffix_refl _
  kept := h.keeps.kept
  settings := h.settings

/-- Frames that are still open begin above the frame that the computation began in. -/
theorem Escapes.base_le (h : w.Escapes w') : w.binding.machine.base ≤ w'.binding.machine.base := by
  cases hframes : w.binding.machine.frames with
  | nil => simp [Machine.base, hframes]
  | cons f rest =>
    have hmem : f ∈ w'.binding.machine.frames := h.frames.subset (by simp [hframes])
    have hbase : w.binding.machine.base = f := by simp [Machine.base, hframes]
    exact hbase ▸ h.framed.le_base hmem

theorem Escapes.trans (h : w.Escapes w') (h' : w'.Escapes w'') : w.Escapes w'' where
  framed := h'.framed
  frames := h.frames.trans h'.frames
  kept i hi := (h'.kept i (Nat.lt_of_lt_of_le hi h.base_le)).trans (h.kept i hi)
  settings := h'.settings.trans h.settings

theorem Leaves.escapes (h : w.Leaves i w') (hw : w.Framed) : w.Escapes w' := by
  cases i with
  | failure f => exact Returns.escapes h hw
  | panic text => exact h
  | exhausted => exact h

theorem Returns.leaves (h : w.Returns w') (hw : w.Framed) (i : Interrupt) : w.Leaves i w' := by
  cases i with
  | failure f => exact h
  | panic text => exact h.escapes hw
  | exhausted => exact h.escapes hw

/-- A change in the innermost frame after an interruption. -/
theorem Leaves.trans_returns (h : w.Leaves i w') (hw' : w'.Framed) (h' : w'.Returns w'') :
    w.Leaves i w'' := by
  cases i with
  | failure f => exact Returns.trans h h'
  | panic text => exact Escapes.trans h (h'.escapes hw')
  | exhausted => exact Escapes.trans h (h'.escapes hw')

/-- An interruption after a part of a computation that came back to its frame. -/
theorem Returns.trans_leaves (h : w.Returns w') (hw : w.Framed) (h' : w'.Leaves i w'') :
    w.Leaves i w'' := by
  cases i with
  | failure f => exact Returns.trans h h'
  | panic text => exact (h.escapes hw).trans h'
  | exhausted => exact (h.escapes hw).trans h'

/-- Only the bindings matter. -/
theorem Returns.of_binding {u u' : World} (h : w.Returns w') (hu : u.binding = w.binding)
    (hu' : u'.binding = w'.binding) : u.Returns u' := by
  obtain ⟨hkeeps, hsettings⟩ := h
  rw [← hu, ← hu'] at hkeeps hsettings
  exact ⟨hkeeps, hsettings⟩

theorem Escapes.of_binding {u u' : World} (h : w.Escapes w') (hu : u.binding = w.binding)
    (hu' : u'.binding = w'.binding) : u.Escapes u' := by
  obtain ⟨hframed, hframes, hkept, hsettings⟩ := h
  rw [Framed, ← hu'] at hframed
  rw [← hu, ← hu'] at hframes hkept hsettings
  exact ⟨hframed, hframes, hkept, hsettings⟩

theorem Leaves.of_binding {u u' : World} (h : w.Leaves i w') (hu : u.binding = w.binding)
    (hu' : u'.binding = w'.binding) : u.Leaves i u' := by
  cases i with
  | failure f => exact Returns.of_binding h hu hu'
  | panic text => exact Escapes.of_binding h hu hu'
  | exhausted => exact Escapes.of_binding h hu hu'

end World

/-! ### Discipline -/

namespace Exec

/-- **A computation keeps to its frame**: it leaves the values below it alone, and it comes back to
it unless it panics or is exhausted. -/
def Disciplined {α : Type} (x : Exec α) : Prop :=
  ∀ w : World, w.Framed → Ends x (fun _ w' ↦ w.Returns w') (fun i w' ↦ w.Leaves i w') w

namespace Disciplined

variable {α β : Type} {x : Exec α} {f : α → Exec β}

/-- Whatever becomes of a computation that keeps to its frame, the frames are in order afterwards.
-/
theorem framed (hx : Disciplined x) {w : World} (hw : w.Framed) : (x.outcome w).2.Framed := by
  have hends := hx w hw
  rcases hout : x.outcome w with ⟨i | a, w'⟩
  · exact ((hends.error hout).escapes hw).framed
  · exact (hends.ok hout).framed hw

/-! #### Putting computations together -/

theorem bind (hx : Disciplined x) (hf : ∀ a, Disciplined (f a)) : Disciplined (x >>= f) := by
  intro w hw
  rw [ends_bind]
  refine (hx w hw).imp (fun a w₁ h₁ ↦ ?_) fun _ _ h ↦ h
  exact (hf a w₁ (h₁.framed hw)).imp (fun _ _ h ↦ h₁.trans h) fun _ _ h ↦ h₁.trans_leaves hw h

/-- A computation may look at the world as it begins. -/
theorem reading {g : World → Exec α} (h : ∀ w, Disciplined (g w)) :
    Disciplined (get >>= g : Exec α) :=
  fun w hw ↦ h w w hw

/-- What is attempted keeps to its frame, and so does what looks at its failure afterwards. -/
theorem attempt (hx : Disciplined x) : Disciplined (attempt x) := by
  intro w hw
  rw [Exec.attempt, ends_tryCatch, ends_map]
  refine (hx w hw).imp (fun _ _ h ↦ h) fun i w₁ h₁ ↦ ?_
  -- Only a failure is observed, and after a failure the frames are those of the computation.
  cases i with
  | failure f => exact h₁
  | panic text => exact h₁
  | exhausted => exact h₁

/-- What is done after an interruption, before it goes on, must not fail: a failure would hide that
frames are still open. -/
theorem onInterrupt {y : Exec Unit} (hx : Disciplined x)
    (hy : ∀ w, w.Framed → Ends y (fun _ w' ↦ w.Returns w') (fun _ _ ↦ False) w) :
    Disciplined (tryCatch x fun i ↦ do y; MonadExcept.throw i) := by
  intro w hw
  rw [ends_tryCatch]
  refine (hx w hw).imp (fun _ _ h ↦ h) fun i w₁ h₁ ↦ ?_
  rw [ends_bind]
  exact (hy w₁ (h₁.escapes hw).framed).imp (fun _ _ h ↦
    h₁.trans_returns (h₁.escapes hw).framed h) fun _ _ h ↦ h.elim

/-- A stack guard sets the top of a frame that is not below that of the computation. -/
theorem guarded (hx : Disciplined x) : Disciplined (guarded x) := by
  intro w hw
  rw [ends_guarded]
  -- The frame whose top is set is the innermost one, which after a panic need not be that of `x`.
  have hset : ∀ {w₁ : World}, w₁.Framed → w₁.Returns { w₁ with
      binding.machine := w₁.binding.machine.setTop w.binding.machine.top } := fun hw₁ ↦
    ⟨Machine.keeps_setTop hw₁.base_le _, rfl⟩
  exact (hx w hw).imp (fun _ _ h ↦ h.trans (hset (h.framed hw))) fun _ _ h ↦
    h.trans_returns (h.escapes hw).framed (hset (h.escapes hw).framed)

end Disciplined

end Exec

end ObjectBridge
