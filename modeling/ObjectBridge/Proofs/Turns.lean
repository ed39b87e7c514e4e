import ObjectBridge.Proofs.Collection
import ObjectBridge.Proofs.Restoring

/-!
# Finalizers take turns

A cycle of the collector queues the userdata whose finalizers are due, and each of them takes its turn
when the cycle is over. `World.Turn` says what a turn comes to. If the userdata has a finalizer then, the
finalizer is called, once, and finds nothing but the userdata in its frame; or else the call is refused.
Whatever comes of it, the stack is as it was before (`Exec.collect_takes_turns`).

The queue holds numbers, and nothing keeps the userdata behind them alive until their turns. That they
are due was found before the first turn: a finalizer that has a cycle run by itself makes the others in
the queue go (`Exec.not_collect_finalizes`).
-/

namespace ObjectBridge

namespace World

/-- Nothing but the stack and the frames of the machine has changed. -/
def Restacked (w w' : World) : Prop :=
  ∃ stack frames, w' = { w with
    binding.machine := { w.binding.machine with stack := stack, frames := frames } }

theorem Restacked.refl (w : World) : w.Restacked w :=
  ⟨_, _, rfl⟩

theorem Restacked.trans {w w' w'' : World} (h : w.Restacked w') (h' : w'.Restacked w'') :
    w.Restacked w'' := by
  obtain ⟨stack, frames, rfl⟩ := h
  obtain ⟨stack', frames', rfl⟩ := h'
  exact ⟨stack', frames', rfl⟩

theorem restacked_setTop (w : World) (n : Nat) :
    w.Restacked { w with binding.machine := w.binding.machine.setTop n } :=
  ⟨_, w.binding.machine.frames, rfl⟩

end World

namespace Machine

/-- Pushing values changes the stack alone. -/
theorem exists_pushAll_eq (m : Machine) (vs : List Value) :
    ∃ stack, m.pushAll vs = { m with stack := stack } := by
  induction vs generalizing m with
  | nil => exact ⟨_, rfl⟩
  | cons v vs ih =>
    obtain ⟨stack, h⟩ := ih (m.push v)
    exact ⟨stack, h⟩

end Machine

namespace Exec

variable {α β : Type} {x : Exec α} {w : World}

/-- A computation changes nothing but the stack and the frames. -/
def Restacks (x : Exec α) : Prop :=
  ∀ w : World, Ends x (fun _ w' ↦ w.Restacked w') (fun _ w' ↦ w.Restacked w') w

namespace Restacks

theorem pure (a : α) : Restacks (pure a : Exec α) :=
  fun w ↦ .refl w

theorem throw (i : Interrupt) : Restacks (throw i : Exec α) :=
  fun w ↦ .refl w

theorem bind {f : α → Exec β} (hx : Restacks x) (hf : ∀ a, Restacks (f a)) : Restacks (x >>= f) := by
  intro w
  rw [ends_bind]
  refine (hx w).imp (fun a w₁ h₁ ↦ ?_) fun _ _ h ↦ h
  exact (hf a w₁).imp (fun _ _ h ↦ h₁.trans h) fun _ _ h ↦ h₁.trans h

theorem modifyMachine {f : Machine → Machine}
    (h : ∀ m, ∃ stack frames, f m = { m with stack := stack, frames := frames }) :
    Restacks (modifyMachine f) := by
  intro w
  obtain ⟨stack, frames, hm⟩ := h w.binding.machine
  exact ⟨stack, frames, congrArg (fun m ↦ { w with binding.machine := m }) hm⟩

end Restacks

theorem restacks_machine : Restacks machine :=
  fun w ↦ .refl w

theorem restacks_closeFrame : Restacks closeFrame :=
  .modifyMachine fun _ ↦ ⟨_, _, rfl⟩

theorem restacks_placeResults (pos n : Nat) (wanted : Option Nat) :
    Restacks (placeResults pos n wanted) := by
  have hplace (vs : List Value) : Restacks (modifyMachine fun m ↦ (m.truncate pos).pushAll vs) :=
    .modifyMachine fun m ↦ by
      obtain ⟨stack, h⟩ := (m.truncate pos).exists_pushAll_eq vs
      exact ⟨stack, m.frames, h⟩
  have hresize (size : Nat) : Restacks (resizeStack size) := by
    refine Restacks.bind (fun w ↦ ?_) fun _ ↦ .modifyMachine fun m ↦ ⟨_, m.frames, rfl⟩
    exact ends_reserve _ _ (.refl w) fun _ ↦ .refl w
  exact restacks_machine.bind fun m ↦ (hplace _).bind fun _ ↦ (hresize _).bind fun _ ↦ .pure _

theorem restacks_resolveCallable (pos : Nat) : Restacks (resolveCallable pos) := by
  refine restacks_machine.bind fun m ↦ ?_
  dsimp only
  split
  · exact .pure _
  · split
    · exact (Restacks.modifyMachine fun m ↦ ⟨_, m.frames, rfl⟩).bind fun _ ↦ .pure _
    · exact (Restacks.modifyMachine fun m ↦ ⟨_, m.frames, rfl⟩).bind fun _ ↦ .throw _

/-- **Entering a call** releases pins that are gone, and then works on stack and frames alone. -/
theorem ends_enter_restacked (w : World) (nargs : Nat) :
    Ends (enter nargs) (fun _ w' ↦ (flushed w).Restacked w') (fun _ w' ↦ (flushed w).Restacked w') w := by
  rw [enter, ends_bind, ends_flushPins, ends_bind, ends_machine]
  dsimp only
  split
  · exact .refl _
  · simp only [ends_bind]
    refine (restacks_resolveCallable _ _).imp (fun c w₁ h₁ ↦ ?_) fun _ _ h ↦ h
    simp only [ends_bind, ends_binding, ends_machine]
    split
    · simp only [ends_bind, ends_modifyMachine, ends_fail]
      exact h₁.trans ⟨_, _, rfl⟩
    · exact h₁.trans ⟨_, _, rfl⟩

end Exec

/-! ### One run of a callee -/

namespace World

/-- A call is refused: there is nothing to call, or there are too many frames. Nothing is run. -/
structure Refuses (w : World) (nargs : Nat) (w' : World) : Prop where
  reason : (∀ c, ¬ (Exec.flushed w).Calls (w.calledAt nargs) c) ∨
    w.binding.settings.maxDepth ≤ w.binding.machine.frames.length
  restacked : (Exec.flushed w).Restacked w'

/-- A callee is run once. Before it pins that are gone are released, after it results are placed, and
nothing else is done but to stack and frames. -/
def RunsOnce (run : Runner) (w : World) (nargs : Nat) (w' : World) : Prop :=
  ∃ c w₁, w.Entered nargs c w₁ ∧ (Exec.flushed w).Restacked w₁ ∧
    ((run c).outcome w₁).2.Restacked w'

variable {run : Runner} {w w' w'' : World} {nargs : Nat}

theorem Refuses.restack (h : w.Refuses nargs w') (h' : w'.Restacked w'') : w.Refuses nargs w'' :=
  ⟨h.reason, h.restacked.trans h'⟩

theorem RunsOnce.restack (h : w.RunsOnce run nargs w') (h' : w'.Restacked w'') :
    w.RunsOnce run nargs w'' := by
  obtain ⟨c, w₁, hentered, hstart, hend⟩ := h
  exact ⟨c, w₁, hentered, hstart, hend.trans h'⟩

end World

namespace Exec

variable {w : World} {run : Runner} {nargs : Nat}

theorem ends_resolveCallable_or_none (pos : Nat) :
    Ends (resolveCallable pos) (fun _ _ ↦ True) (fun _ _ ↦ ∀ c, ¬ w.Calls pos c) w := by
  simp only [resolveCallable, ends_bind, ends_machine]
  split
  · trivial
  · rename_i hcalled
    split
    · trivial
    · rename_i hhandler
      rintro c (hc | ⟨-, hc⟩)
      · exact absurd (hcalled.symm.trans hc) (by simp)
      · exact absurd (hhandler.symm.trans hc) (by simp)

/-- A callee begins, or the call is refused. -/
theorem ends_enter_or_refuse (hw : w.Framed) (hn : nargs + 1 ≤ w.binding.machine.top) :
    Ends (enter nargs)
      (fun r w₁ ↦ w.Entered nargs r.2 w₁ ∧ (flushed w).Restacked w₁)
      (fun i w₁ ↦ (∃ f, i = .failure f) ∧ w.Refuses nargs w₁) w := by
  have hrest : Ends (enter nargs) (fun _ w₁ ↦ (flushed w).Restacked w₁)
      (fun i w₁ ↦ (∃ f, i = .failure f) ∧ w.Refuses nargs w₁) w := by
    rw [enter, ends_bind, ends_flushPins, ends_bind, ends_machine, top_flushed, if_neg (by omega)]
    have hat : (flushed w).binding.machine.stack.size - nargs - 1 = (flushed w).calledAt nargs :=
      Nat.sub_sub ..
    have hlt := World.calledAt_lt (w := flushed w) (top_flushed ▸ hn)
    simp only [hat, ends_bind]
    refine ((ends_resolveCallable hlt).and (ends_resolveCallable_or_none _)).imp
      (fun c w₁ h₁ ↦ ?_) fun i w₁ h₁ ↦ ?_
    · obtain ⟨⟨-, stack, v, rfl, -⟩, -⟩ := h₁
      simp only [ends_bind, ends_binding, ends_machine]
      split
      · rename_i hdepth
        simp only [ends_bind, ends_modifyMachine, ends_fail]
        rw [frames_flushed, settings_flushed] at hdepth
        exact ⟨⟨_, rfl⟩, .inr hdepth, _, _, rfl⟩
      · exact ⟨_, _, rfl⟩
    · obtain ⟨⟨hi, rfl⟩, hnone⟩ := h₁
      exact ⟨hi, .inl (calledAt_flushed ▸ hnone), _, _, rfl⟩
  exact ((ends_enter hw nargs).and hrest).imp (fun r w₁ h ↦ ⟨h.1.2.2, h.2⟩) fun _ _ h ↦ h.2

/-- **A protected call runs its callee once**, or it is refused. -/
theorem ends_tryCall_once (hw : w.Framed) (hn : nargs + 1 ≤ w.binding.machine.top)
    (nresults : Option Nat) :
    Ends (tryCall run nargs nresults) (fun _ w' ↦ w.RunsOnce run nargs w')
      (fun i w' ↦ i = .exhausted ∨ w.RunsOnce run nargs w' ∨ w.Refuses nargs w') w := by
  have hcall : Ends (call run nargs nresults) (fun _ w' ↦ w.RunsOnce run nargs w')
      (fun i w' ↦ w.RunsOnce run nargs w' ∨ w.Refuses nargs w') w := by
    rw [call, ends_bind]
    refine (ends_enter_or_refuse hw hn).imp (fun r w₁ h₁ ↦ ?_) fun i w₁ h₁ ↦ .inr h₁.2
    obtain ⟨pos, c⟩ := r
    have honce {w' : World} (h : ((run c).outcome w₁).2.Restacked w') : w.RunsOnce run nargs w' :=
      ⟨c, w₁, h₁.1, h₁.2, h⟩
    simp only [ends_bind, ends_tryCatch]
    refine ends_iff.2 ⟨fun n w₂ h₂ ↦ ?_, fun i w₂ h₂ ↦ ?_⟩
    · rw [h₂] at honce
      exact ((restacks_closeFrame.bind fun _ ↦ restacks_placeResults pos n nresults) w₂).imp
        (fun _ _ h ↦ honce h) fun _ _ h ↦ .inl (honce h)
    · rw [h₂] at honce
      cases i with
      | failure f =>
        simp only [ends_bind, ends_closeFrame, ends_modifyMachine, ends_throw]
        exact .inl (honce ⟨_, _, rfl⟩)
      | panic | exhausted => exact .inl (honce (.refl _))
  simp only [tryCall, ends_bind, ends_machine, ends_tryCatch]
  refine hcall.imp (fun _ _ h ↦ h) fun i w₁ h₁ ↦ ?_
  -- Whatever ended the call, unwinding is done to the stack and the frames alone.
  have hunwound {w' : World} (h : w₁.Restacked w') : w.RunsOnce run nargs w' ∨ w.Refuses nargs w' :=
    h₁.imp (·.restack h) (·.restack h)
  cases i with
  | failure | panic => exact .inr (hunwound ⟨_, _, rfl⟩)
  | exhausted => exact .inl rfl

end Exec

/-! ### Turns -/

namespace World

/-- The finalizer of a userdata. -/
def finalizer (w : World) (id : Nat) : Value :=
  w.binding.machine.metafield (.userdata id) "__gc"

/-- On the stack are the finalizer of a userdata and the userdata. -/
def offering (w : World) (id : Nat) : World :=
  { w with binding.machine := (w.binding.machine.push (w.finalizer id)).push (.userdata id) }

theorem passed_offering (w : World) (id : Nat) : (w.offering id).passed 1 = [.userdata id] ∨
    (w.offering id).passed 1 = [w.finalizer id, .userdata id] := by
  have hstack : (w.offering id).binding.machine.stack =
      (w.binding.machine.stack.push (w.finalizer id)).push (.userdata id) := rfl
  have hat : (w.offering id).calledAt 1 = w.binding.machine.stack.size := by
    rw [calledAt, hstack, Array.size_push, Array.size_push]
    omega
  have hcalled : (w.offering id).called 1 = w.finalizer id := by
    rw [called, hat, hstack, Array.getElem?_push, if_neg (by simp), Array.getElem?_push_size,
      Option.getD_some]
  have harguments : (w.offering id).arguments 1 = [.userdata id] := by
    rw [arguments, hat, hstack, Array.toList_push, ← Array.size_push (w.finalizer id),
      ← Array.length_toList, List.drop_left]
  rw [passed, hcalled, harguments]
  split
  · exact .inl rfl
  · exact .inr rfl

/-- What the turn of a userdata comes to. -/
inductive Turn (run : Runner) (id : Nat) (w : World) : World → Prop
  /-- It has no finalizer. -/
  | idle (h : (w.finalizer id).isNil = true) : Turn run id w w
  /-- Its finalizer is run with it, once. If the finalizer is no function then it is passed to what is
  called in its place. -/
  | called {w' : World} (h : ¬ (w.finalizer id).isNil = true)
      (passed : (w.offering id).passed 1 = [.userdata id] ∨
        (w.offering id).passed 1 = [w.finalizer id, .userdata id])
      (once : (w.offering id).RunsOnce run 1 w') (balanced : w.Balanced w') : Turn run id w w'
  /-- Its finalizer cannot be called. -/
  | refused {w' : World} (h : ¬ (w.finalizer id).isNil = true)
      (refuses : (w.offering id).Refuses 1 w') (balanced : w.Balanced w') : Turn run id w w'

/-- Userdata take turns, each in the world that the one before it has left. -/
inductive Turns (run : Runner) : List (Nat × World) → World → World → Prop
  | nil {w : World} : Turns run [] w w
  | cons {w w₁ w' : World} {id : Nat} {ts : List (Nat × World)} (turn : w.Turn run id w₁)
      (rest : Turns run ts w₁ w') : Turns run ((id, w) :: ts) w w'

/-- The userdata of a number is there. -/
def Live (w : World) (id : Nat) : Prop :=
  w.binding.machine.heap.userdata.live id = true

instance (w : World) (id : Nat) : Decidable (w.Live id) :=
  inferInstanceAs (Decidable (_ = true))

variable {run : Runner} {w w' : World} {id : Nat}

theorem Turn.framed (h : w.Turn run id w') (hw : w.Framed) : w'.Framed := by
  cases h with
  | idle => exact hw
  | called _ _ _ balanced | refused _ _ balanced => exact balanced.extends.framed hw

/-- **In its turn a userdata is there**, unless it was removed in the turn of another. -/
theorem Turns.live_or_removed {ts ts₁ ts₂ : List (Nat × World)} {wᵢ : World}
    (h : Turns run ts w w') (hlive : w.Live id) (hts : ts = ts₁ ++ (id, wᵢ) :: ts₂) :
    wᵢ.Live id ∨ ∃ t ∈ ts₁, ∃ w₂, t.2.Turn run t.1 w₂ ∧ t.2.Live id ∧ ¬ w₂.Live id := by
  -- From the front: the turn after which it is gone, if there is one, took it.
  induction h generalizing ts₁ with
  | nil => simp at hts
  | @cons w w₁ w' id' ts turn rest ih =>
    cases ts₁ with
    | nil =>
      obtain ⟨⟨rfl, rfl⟩, -⟩ : (id' = id ∧ w = wᵢ) ∧ ts = ts₂ := by simpa using hts
      exact .inl hlive
    | cons t ts₁ =>
      obtain ⟨rfl, hrest⟩ : (id', w) = t ∧ ts = ts₁ ++ (id, wᵢ) :: ts₂ := by simpa using hts
      by_cases hlive₁ : w₁.Live id
      · refine (ih hlive₁ hrest).imp_right ?_
        rintro ⟨t, ht, h⟩
        exact ⟨t, List.mem_cons_of_mem _ ht, h⟩
      · exact .inr ⟨_, List.mem_cons_self, w₁, turn, hlive, hlive₁⟩

/-- What a cycle of the collector makes of the heap. -/
def cycle (w : World) : Except Interruption Collection :=
  (Exec.flushed w).binding.machine.heap.collect (Exec.flushed w).binding.machine.roots

/-- A userdata whose finalizer is due in a cycle. -/
def Due (w : World) (id : Nat) : Prop :=
  (Exec.flushed w).binding.machine.heap.Due (Exec.flushed w).binding.machine.roots id

/-- The world after a cycle, before any finalizer is run. -/
def swept (w : World) (c : Collection) : World :=
  { Exec.flushed w with
    host := c.removed.foldl Host.dropUserdata w.host
    binding.machine := { (Exec.flushed w).binding.machine with
      heap := c.heap
      tally := (Exec.flushed w).binding.machine.tally.add c.tally } }

end World

namespace Exec

variable {w : World} {run : Runner}

theorem ends_runFinalizer (hw : w.Framed) (hrun : ∀ c, Disciplined (run c)) (id : Nat) :
    Ends (runFinalizer run id) (fun _ w' ↦ w.Turn run id w') (fun i _ ↦ i = .exhausted) w := by
  rw [runFinalizer, ends_bind, ends_machine]
  dsimp only
  split
  · exact .idle ‹_›
  · rename_i hfinalizer
    have hoffers : w.Offers (w.finalizer id) [.userdata id] (w.offering id) :=
      w.offers_pushAll _ [.userdata id]
    -- One rule says what becomes of the stack, the other what is run.
    have hcall := (ends_tryCall_of_offers hoffers hw hrun (some 0)).and
      (ends_tryCall_once (hoffers.extends.framed hw) (hoffers.le_top hw) (some 0))
    have hturn {w' : World} (hextends : w.Extends w')
        (h : (w.offering id).RunsOnce run 1 w' ∨ (w.offering id).Refuses 1 w') :
        w.Turn run id { w' with
          binding.machine := w'.binding.machine.setTop w.binding.machine.top } := by
      have hbalanced := hextends.balanced_setTop hw
      rcases h with h | h
      · exact .called hfinalizer (w.passed_offering id) (h.restack ⟨_, _, rfl⟩) hbalanced
      · exact .refused hfinalizer (h.restack ⟨_, _, rfl⟩) hbalanced
    simp only [attempt, ends_bind, ends_push, ends_tryCatch, ends_map]
    refine hcall.imp (fun n w' h ↦ hturn h.1 (.inl h.2)) fun i w' h ↦ ?_
    obtain ⟨⟨⟨e, rfl⟩, hextends⟩ | rfl, h⟩ := h
    · exact hturn hextends (h.resolve_left (by simp))
    · rfl

theorem ends_turns (hw : w.Framed) (hrun : ∀ c, Disciplined (run c)) (ids : List Nat) :
    Ends (ids.forM (runFinalizer run))
      (fun _ w' ↦ ∃ ts, ts.map Prod.fst = ids ∧ World.Turns run ts w w')
      (fun i _ ↦ i = .exhausted) w := by
  induction ids generalizing w with
  | nil => exact ⟨[], rfl, .nil⟩
  | cons id ids ih =>
    rw [List.forM, ends_bind]
    refine (ends_runFinalizer hw hrun id).imp (fun _ w₁ turn ↦ ?_) fun _ _ h ↦ h
    refine (ih (turn.framed hw)).imp (fun _ w' h ↦ ?_) fun _ _ h ↦ h
    obtain ⟨ts, hids, hturns⟩ := h
    exact ⟨(id, w) :: ts, by rw [List.map_cons, hids], .cons turn hturns⟩

theorem framed_swept (hw : w.Framed) (c : Collection) : (w.swept c).Framed :=
  have hflushed := (returns_flushed hw).framed hw
  ⟨hflushed.sorted, hflushed.base_le, hflushed.depth_le⟩

/-- **Finalizers take turns.** A cycle queues exactly the userdata that are due, each once, and then each
takes its turn. It is there then, unless it was removed in the turn of another before it. A cycle that
meets a stray reference runs no finalizer. -/
theorem collect_takes_turns (hw : w.Framed) (fuel : Nat) :
    Ends (collect (runner fuel))
      (fun n w' ↦ ∃ c ts, w.cycle = .ok c ∧ n = c.due.length ∧
        c.due.Nodup ∧ (∀ id, id ∈ c.due ↔ w.Due id) ∧
        ts.map Prod.fst = c.due ∧ World.Turns (runner fuel) ts (w.swept c) w' ∧
        ∀ ts₁ t ts₂, ts = ts₁ ++ t :: ts₂ → t.2.Live t.1 ∨
          ∃ t' ∈ ts₁, ∃ w₂, t'.2.Turn (runner fuel) t'.1 w₂ ∧ t'.2.Live t.1 ∧ ¬ w₂.Live t.1)
      (fun i _ ↦ i = .exhausted ∨ ∃ s, w.cycle = .error s) w := by
  simp only [collect, sweep, ends_bind, ends_flushPins, ends_machine]
  split
  · rename_i s hs
    simp only [ends_bind, ends_modifyMachine, ends_panic]
    exact .inr ⟨s, hs⟩
  · rename_i c hc
    simp only [ends_bind, ends_modifyMachine, ends_modifyHost, ends_pure]
    have hcollects := Heap.collects_of_collect hc
    -- The cycle itself keeps the userdata that it queues.
    have hlive (id : Nat) (hid : id ∈ c.due) : (w.swept c).Live id := by
      have hdue := (hcollects.mem_due_iff id).1 hid
      obtain ⟨u, hu, -⟩ := hdue.pending
      exact c.heap.userdata.live_iff.2 ⟨_, hcollects.userdata_flagged id u hu hdue⟩
    refine (ends_turns (framed_swept hw c) (disciplined_runner fuel) c.due).imp (fun _ w' h ↦ ?_)
      fun _ _ h ↦ .inl h
    obtain ⟨ts, hts, hturns⟩ := h
    refine ⟨c, ts, hc, rfl, hcollects.nodup_due, hcollects.mem_due_iff, hts, hturns, ?_⟩
    rintro ts₁ ⟨id, wᵢ⟩ ts₂ h
    exact hturns.live_or_removed (hlive id (by rw [← hts, h]; simp)) h

end Exec

/-- Nothing refers to two userdata, and what their metatable, which is on the stack, has as finalizer
runs a cycle itself. -/
@[irreducible]
def World.nested : World :=
  (Session.lobby.run [.act (.table .create),
    .act (.closure [.object (.addForeign (.slot 1) 100), .collect .collect] "finalizer"),
    .act (.table (.rawSetField (.slot 1) "__gc" (.slot 2))), .act (.stack (.setTop 1)),
    .act (.object (.pushForeign 1)), .act (.table (.setMetatable (.slot (-1)) (.slot 1))),
    .act (.object (.pushForeign 2)), .act (.table (.setMetatable (.slot (-1)) (.slot 1))),
    .act (.stack (.setTop 1))]).world

namespace Exec

/-- Both take their turns. -/
theorem collect_takes_turns_nested : ∃ w' c ts,
    (collect (runner 3)).outcome World.nested = (.ok 2, w') ∧ c.due.length = 2 ∧
      ts.map Prod.fst = c.due ∧ World.Turns (runner 3) ts (World.nested.swept c) w' := by
  have hreached : World.nested.Reached := by
    unfold World.nested
    exact .session Session.start_lobby _
  have hw : World.nested.Framed := hreached.framed
  have hok : ((collect (runner 3)).outcome World.nested).1 = .ok 2 := by decide +kernel
  have hout := outcome_eq_of_fst hok
  obtain ⟨c, ts, -, hlength, -, -, hts, hturns, -⟩ := (collect_takes_turns hw 3).ok hout
  exact ⟨_, c, ts, hout, hlength.symm, hts, hturns⟩

/-- **Not all that is queued is finalized**: when the first of the two has taken its turn, the second is
gone and has no finalizer to be called in its turn, although its metatable still has it. -/
theorem not_collect_finalizes : ∃ first second mt w₁ w₂,
    sweep.outcome World.nested = (.ok [first, second], w₁) ∧
      w₁.binding.machine.heap.metatable? (.userdata second) = some mt ∧
      (runFinalizer (runner 3) first).outcome w₁ = (.ok (), w₂) ∧
      ¬ (w₂.binding.machine.heap.rawGetField mt "__gc").isNil = true ∧
      ¬ w₂.Live second ∧ (w₂.finalizer second).isNil = true := by
  let w₁ := (sweep.outcome World.nested).2
  let w₂ := ((runFinalizer (runner 3) 0).outcome w₁).2
  have hrun : (sweep.outcome World.nested).1 = .ok [0, 1] ∧
      w₁.binding.machine.heap.metatable? (.userdata 1) = some 10 ∧
      ((runFinalizer (runner 3) 0).outcome w₁).1 = .ok () ∧
      ¬ (w₂.binding.machine.heap.rawGetField 10 "__gc").isNil = true ∧
      ¬ w₂.Live 1 ∧ (w₂.finalizer 1).isNil = true := by decide +kernel
  obtain ⟨hswept, hmetatable, hturn, hrest⟩ := hrun
  exact ⟨0, 1, 10, w₁, w₂, outcome_eq_of_fst hswept, hmetatable, outcome_eq_of_fst hturn, hrest⟩

end Exec

end ObjectBridge
