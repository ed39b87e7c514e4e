import ObjectBridge.Proofs.NativeCalls
import ObjectBridge.Proofs.Sweeping
import ObjectBridge.Proofs.Waning

/-!
# What finalizers of the bridge come to

The finalizer of the bridge discards the record of a userdata, makes the identity cache forget the
userdata, and destroys what the record owns: `World.finalized` is the world after that, and nothing
else changes. A turn of a userdata that has this finalizer, or none, comes to just that
(`Exec.ends_runFinalizer_bridge`), as long as there is a frame left to call the finalizer in; so when
the userdata that a cycle has found due have taken their turns, each has been taken apart once
(`World.Retires`).
-/

namespace ObjectBridge

/-- A record of which the finalizer has run. -/
def Record.retired (r : Record) : Record :=
  { r.discard with payload := none }

namespace World

variable {w w' w'' : World} {id : Nat}

/-- What a userdata owns. -/
def payload? (w : World) (id : Nat) : Option Payload :=
  (w.record? id).bind (·.payload)

/-- The host after some payloads have been destroyed, one after the other. -/
def hostWithout (w : World) (ps : List Payload) : Host :=
  ps.foldl Host.dropPayload w.host

/-- The world after the finalizer of the bridge has taken a userdata apart. -/
def finalized (w : World) (id : Nat) : World :=
  match w.record? id with
  | some r => { w.finalizing id r with host := w.hostWithout r.payload.toList }
  | none => w

/-- A userdata that has the finalizer of the bridge, or else carries no record and has none that can be
called. -/
inductive Tame (w : World) (id : Nat) : Prop
  | bridge (h : w.binding.machine.callable? (w.finalizer id) = some (.builtin .finalize))
  | none (hrecord : w.record? id = none) (h : (w.finalizer id).isNil = true)
  | dead {f : Nat} (hrecord : w.record? id = none) (h : w.finalizer id = .function f)
      (hdead : w.binding.machine.callable? (.function f) = none)

theorem finalized_of_none (h : w.record? id = none) : w.finalized id = w := by
  rw [finalized, h]

/-! ### Stack and frames aside -/

theorem Restacked.eq (h : w.Restacked w')
    (hstack : w'.binding.machine.stack = w.binding.machine.stack)
    (hframes : w'.binding.machine.frames = w.binding.machine.frames) : w' = w := by
  obtain ⟨stack, frames, rfl⟩ := h
  obtain rfl : stack = w.binding.machine.stack := hstack
  obtain rfl : frames = w.binding.machine.frames := hframes
  rfl

theorem Restacked.flushed (h : w.Restacked w') : (Exec.flushed w).Restacked (Exec.flushed w') := by
  obtain ⟨stack, frames, rfl⟩ := h
  have hfold (refs : List Int) (m : Machine) :
      refs.foldl (fun m r ↦ m.unreference w.binding.tables.pinned r)
        { m with stack := stack, frames := frames } =
      { refs.foldl (fun m r ↦ m.unreference w.binding.tables.pinned r) m with
        stack := stack, frames := frames } := by
    induction refs generalizing m with
    | nil => rfl
    | cons r refs ih => exact ih (m.unreference w.binding.tables.pinned r)
  refine ⟨stack, frames, ?_⟩
  simp only [Exec.flushed, hfold]

theorem Restacked.finalized (h : w.Restacked w') (id : Nat) :
    (w.finalized id).Restacked (w'.finalized id) := by
  obtain ⟨stack, frames, rfl⟩ := h
  refine ⟨stack, frames, ?_⟩
  rw [World.finalized, World.finalized]
  have hrecord : World.record? { w with binding.machine :=
      { w.binding.machine with stack := stack, frames := frames } } id = w.record? id := rfl
  rw [hrecord]
  cases w.record? id with
  | none => rfl
  | some r =>
    simp only [finalizing]
    cases w.binding.cache.entryOf (r.cacheKey w.binding.registry) id <;> rfl

theorem restacked_entering (w : World) (f : Value) (args : List Value) :
    (Exec.flushed w).Restacked (w.entering f args) := by
  have hcalling : w.Restacked (w.calling f args) := ⟨_, w.binding.machine.frames, rfl⟩
  exact hcalling.flushed.trans ⟨(Exec.flushed (w.calling f args)).binding.machine.stack, _, rfl⟩

theorem stack_finalized (w : World) (id : Nat) :
    (w.finalized id).binding.machine.stack = w.binding.machine.stack ∧
      (w.finalized id).binding.machine.frames = w.binding.machine.frames := by
  rw [finalized]
  split
  · rw [finalizing]
    split <;> exact ⟨rfl, rfl⟩
  · exact ⟨rfl, rfl⟩

theorem Turn.balanced {run : Runner} (h : w.Turn run id w') : w.Balanced w' := by
  cases h with
  | idle => exact .refl w
  | called _ _ _ balanced | refused _ _ balanced => exact balanced

end World

namespace Exec

variable {w : World} {id : Nat}

/-- **The finalizer of the bridge takes its argument apart.** -/
theorem ends_finalize_eq (hid : w.binding.machine.valueAt 1 = .userdata id) :
    Ends finalize (fun n w' ↦ n = 0 ∧ w' = w.finalized id) (fun _ _ ↦ False) w := by
  have hrecord : w.record? id = w.binding.machine.record? id := rfl
  simp only [finalize, ends_bind, ends_machine, hid, Value.userdata?, World.finalized, hrecord]
  cases w.binding.machine.record? id with
  | none => exact ⟨rfl, rfl⟩
  | some r =>
    simp only [finalizeRecord, ends_bind, ends_binding, ends_modifyMachine, World.finalizing]
    cases he : w.binding.cache.entryOf (r.cacheKey w.binding.registry) id <;> cases r.payload <;>
      exact ⟨rfl, rfl⟩

/-- Placing results does not exhaust anything. -/
theorem ends_placeResults_reserve (pos n : Nat) (wanted : Option Nat) :
    Ends (placeResults pos n wanted) (fun _ _ ↦ True) (fun i _ ↦ i ≠ .exhausted) w := by
  simp only [placeResults, resizeStack, ends_bind, ends_machine, ends_modifyMachine]
  exact ends_reserve _ _ trivial fun _ ↦ by simp

/-- A call of the finalizer of the bridge for which there is a frame left. -/
theorem ends_tryCall_finalize (id : Nat) (hw : w.Framed) {f : Value}
    (hf : w.binding.machine.callable? f = some (.builtin .finalize))
    (hdepth : w.binding.machine.frames.length < w.binding.settings.maxDepth) (fuel : Nat) :
    Ends (tryCall (runner fuel) 1 (some 0))
      (fun _ w' ↦ ((flushed w).finalized id).Restacked w')
      (fun i w' ↦ (∃ e, i = .failure e) ∧ ((flushed w).finalized id).Restacked w')
      (w.calling f [.userdata id]) := by
  have hcall : Ends (call (runner fuel) 1 (some 0))
      (fun _ w' ↦ ((flushed w).finalized id).Restacked w')
      (fun i w' ↦ i ≠ .exhausted ∧ ((flushed w).finalized id).Restacked w')
      (w.calling f [.userdata id]) := by
    rw [call, ends_bind]
    show Ends (enter [Value.userdata id].length) _ _ _
    refine ends_enter_function hw hf hdepth ?_
    rw [ends_bind, ends_tryCatch, runner_builtin]
    refine (ends_finalize_eq (World.valueAt_entering (by decide) (by simp))).imp (fun n w₁ h ↦ ?_)
      fun _ _ h ↦ h.elim
    obtain ⟨-, rfl⟩ := h
    have hentered := (w.restacked_entering f [.userdata id]).finalized id
    rw [ends_bind, ends_closeFrame]
    refine ((restacks_placeResults _ n (some 0) _).and (ends_placeResults_reserve _ n (some 0))).imp
      (fun _ w' h ↦ ?_) fun i w' h ↦ ⟨h.2, ?_⟩ <;>
    exact (hentered.trans ⟨_, _, rfl⟩).trans h.1
  simp only [tryCall, ends_bind, ends_machine, ends_tryCatch]
  refine hcall.imp (fun _ _ h ↦ h) fun i w₁ h ↦ ?_
  obtain ⟨hi, h⟩ := h
  cases i with
  | failure | panic => exact ⟨⟨_, rfl⟩, h.trans ⟨_, _, rfl⟩⟩
  | exhausted => exact absurd rfl hi

/-- A call in which no callee begins. -/
theorem ends_tryCall_refused (id : Nat) (hw : w.Framed) {f : Value}
    (hrefused : ∀ c w₁, ¬ (w.calling f [.userdata id]).Entered 1 c w₁) (run : Runner) :
    Ends (tryCall run 1 (some 0)) (fun _ w' ↦ (flushed w).Restacked w')
      (fun i w' ↦ (∃ e, i = .failure e) ∧ (flushed w).Restacked w')
      (w.calling f [.userdata id]) := by
  have hoffers := w.offers_calling f [.userdata id]
  have hflushed : (flushed w).Restacked (flushed (w.calling f [.userdata id])) :=
    World.Restacked.flushed ⟨_, w.binding.machine.frames, rfl⟩
  have hcall : Ends (call run 1 (some 0)) (fun _ w' ↦ (flushed w).Restacked w')
      (fun i w' ↦ (∃ e, i = .failure e) ∧ (flushed w).Restacked w')
      (w.calling f [.userdata id]) := by
    rw [call, ends_bind]
    refine (ends_enter_or_refuse (hoffers.extends.framed hw) (hoffers.le_top hw)).imp
      (fun r w₁ h ↦ absurd h.1 (hrefused _ _)) fun i w₁ h ↦ ⟨h.1, hflushed.trans h.2.restacked⟩
  simp only [tryCall, ends_bind, ends_machine, ends_tryCatch]
  refine hcall.imp (fun _ _ h ↦ h) fun i w₁ h ↦ ?_
  obtain ⟨⟨e, rfl⟩, h⟩ := h
  exact ⟨⟨_, rfl⟩, h.trans ⟨_, _, rfl⟩⟩

/-- What is a function no more cannot be called, nor can anything else in its place. -/
theorem not_entered_dead {f : Nat} (hf : w.binding.machine.callable? (.function f) = none) (id : Nat)
    (c : Callable) (w₁ : World) : ¬ (w.calling (.function f) [.userdata id]).Entered 1 c w₁ := by
  intro h
  have hat : (w.calling (.function f) [.userdata id]).calledAt [Value.userdata id].length =
      w.binding.machine.stack.size := by
    rw [World.calledAt, World.size_calling, Nat.add_sub_cancel]
  have hcalled : (flushed (w.calling (.function f) [.userdata id])).binding.machine.stack[
      w.binding.machine.stack.size]?.getD .nil = .function f := by
    rw [stack_flushed, World.calling, Array.getElem?_append_left (by simp),
      Array.getElem?_push_size, Option.getD_some]
  have hcalls : (flushed (w.calling (.function f) [.userdata id])).Calls
      ((w.calling (.function f) [.userdata id]).calledAt [Value.userdata id].length) c := h.calls
  rw [World.Calls, hat, hcalled] at hcalls
  have hnone : (flushed (w.calling (.function f) [.userdata id])).binding.machine.callable?
      (.function f) = none := (callable?_flushed _).trans hf
  rcases hcalls with hc | ⟨-, hc⟩
  · exact absurd (hnone.symm.trans hc) (by simp)
  · exact absurd hc (by simp [Machine.metafield, Machine.metatable?, Heap.metatable?,
      Machine.callable?])

/-- What is done around the call of a finalizer is done to the stack and the frames alone. -/
theorem ends_runFinalizer_of_call {run : Runner} {w₁ : World}
    (hnil : ¬ (w.finalizer id).isNil = true)
    (hcall : Ends (tryCall run 1 (some 0)) (fun _ w' ↦ w₁.Restacked w')
      (fun i w' ↦ (∃ e, i = .failure e) ∧ w₁.Restacked w')
      (w.calling (w.finalizer id) [.userdata id])) :
    Ends (runFinalizer run id) (fun _ w' ↦ w₁.Restacked w') (fun _ _ ↦ False) w := by
  have hcalling : { w with binding.machine :=
      (w.binding.machine.push (w.finalizer id)).push (.userdata id) } =
        w.calling (w.finalizer id) [.userdata id] := by
    simp [World.calling, Machine.push]
  rw [runFinalizer, ends_bind, ends_machine]
  dsimp only
  rw [← World.finalizer, if_neg hnil]
  simp only [attempt, ends_bind, ends_push, ends_tryCatch, ends_map]
  show Ends _ _ _ { w with binding.machine :=
    (w.binding.machine.push (w.finalizer id)).push (.userdata id) }
  rw [hcalling]
  refine hcall.imp (fun _ w' h ↦ h.trans ⟨_, _, rfl⟩) fun i w' h ↦ ?_
  obtain ⟨⟨e, rfl⟩, h⟩ := h
  exact h.trans ⟨_, _, rfl⟩

/-- A userdata without a finalizer has an idle turn. -/
theorem ends_runFinalizer_of_isNil (hnil : (w.finalizer id).isNil = true) (run : Runner)
    {Q : Unit → World → Prop} {E : Interrupt → World → Prop} (hQ : Q () w) :
    Ends (runFinalizer run id) Q E w := by
  rw [runFinalizer, ends_bind, ends_machine]
  dsimp only
  rw [← World.finalizer, if_pos hnil]
  exact hQ

/-- A function is something. -/
theorem not_isNil_of_callable {v : Value} {c : Callable} (h : w.binding.machine.callable? v = some c) :
    ¬ v.isNil = true := by
  intro hnil
  cases v with
  | nil => exact absurd h (by simp [Machine.callable?])
  | _ => exact absurd hnil (by simp [Value.isNil])

/-- **The turn of a userdata that has the finalizer of the bridge, or none, takes the userdata
apart**, if there are no references of pins to release any more. -/
theorem ends_runFinalizer_bridge (hw : w.Framed) (hflushed : flushed w = w) (htame : w.Tame id)
    (hdepth : w.binding.machine.frames.length < w.binding.settings.maxDepth) (fuel : Nat) :
    Ends (runFinalizer (runner fuel) id) (fun _ w' ↦ w' = w.finalized id) (fun _ _ ↦ False) w := by
  have hrestacked : Ends (runFinalizer (runner fuel) id)
      (fun _ w' ↦ (w.finalized id).Restacked w') (fun _ _ ↦ False) w := by
    cases htame with
    | bridge h =>
      have hcall := ends_tryCall_finalize id hw h hdepth fuel
      rw [hflushed] at hcall
      exact ends_runFinalizer_of_call (not_isNil_of_callable h) hcall
    | none hrecord h =>
      refine ends_runFinalizer_of_isNil h _ ?_
      rw [World.finalized_of_none hrecord]
      exact .refl w
    | dead hrecord h hdead =>
      have hcall := ends_tryCall_refused id hw (not_entered_dead hdead id) (runner fuel)
      rw [World.finalized_of_none hrecord]
      rw [← h, hflushed] at hcall
      exact ends_runFinalizer_of_call (by rw [h]; simp [Value.isNil]) hcall
  refine (hrestacked.and (ends_runFinalizer hw (disciplined_runner fuel) id)).imp
    (fun _ w' h ↦ ?_) fun _ _ h ↦ h.1
  obtain ⟨hrestacked, turn⟩ := h
  obtain ⟨hstack, hframes⟩ := w.stack_finalized id
  exact hrestacked.eq (turn.balanced.stack.trans hstack.symm) (turn.balanced.frames.trans hframes.symm)

end Exec

/-! ### Several finalizers -/

/-- Changing what a userdata carries leaves its metatable and its flag alone. -/
theorem Machine.exists_modifyRecord (m : Machine) (id : Nat) (f : Record → Record) {id' : Nat}
    {u : Userdata} (hu : m.heap.userdata.get? id' = some u) :
    ∃ u', (m.modifyRecord id f).heap.userdata.get? id' = some u' ∧ u'.metatable = u.metatable ∧
      u'.finalized = u.finalized := by
  rw [modifyRecord, Heap.modifyUserdata, SlotStore.get?_modify, hu, Option.map_some]
  split
  · refine ⟨_, rfl, ?_⟩
    split <;> exact ⟨rfl, rfl⟩
  · exact ⟨u, rfl, rfl, rfl⟩

namespace World

variable {w w₁ w' : World} {id : Nat} {ids : List Nat}

/-- There are no references of pins to release. -/
def Drained (w : World) : Prop :=
  (w.pins[w.binding.number]?.getD {}).released = []

theorem drained_flushed (w : World) : (Exec.flushed w).Drained := by
  show ((w.pins.modify w.binding.number fun t ↦ { t with released := [] })[
    w.binding.number]?.getD {}).released = []
  rw [Array.getElem?_modify, if_pos rfl]
  cases w.pins[w.binding.number]? <;> rfl

theorem Drained.flushed (h : w.Drained) : Exec.flushed w = w := by
  have hpins : (w.pins.modify w.binding.number fun t ↦ { t with released := [] }) = w.pins := by
    refine Array.ext_getElem? fun i ↦ ?_
    rw [Array.getElem?_modify]
    split
    · rename_i hi
      subst hi
      rw [Drained] at h
      cases hp : w.pins[w.binding.number]? with
      | none => rfl
      | some t =>
        rw [hp, Option.getD_some] at h
        rw [Option.map_some, ← h]
    · rfl
  rw [Exec.flushed, hpins, show (w.pins[w.binding.number]?.getD {}).released = [] from h]
  rfl

/-- The table of the identity cache keeps no userdata alive. -/
def WeakCache (w : World) : Prop :=
  ∀ t, w.binding.machine.heap.tables.get? w.binding.tables.cache = some t → t.weakValues = true

/-- What a world is like after the userdata `ids` have been taken apart. -/
structure Retires (w : World) (ids : List Nat) (w' : World) : Prop where
  heap : w.binding.machine.heap.Wanes w'.binding.machine.heap
  strings : w'.binding.machine.heap.strings = w.binding.machine.heap.strings
  functions : w'.binding.machine.heap.functions = w.binding.machine.heap.functions
  /-- Tables lose entries under integers only. -/
  table : ∀ {id t}, w.binding.machine.heap.tables.get? id = some t →
    ∃ t', w'.binding.machine.heap.tables.get? id = some t' ∧ t'.weakValues = t.weakValues ∧
      ∀ s, t'.entries.find? (.string s) = t.entries.find? (.string s)
  userdata : ∀ {id u}, w.binding.machine.heap.userdata.get? id = some u →
    ∃ u', w'.binding.machine.heap.userdata.get? id = some u' ∧ u'.metatable = u.metatable ∧
      u'.finalized = u.finalized
  roots : w'.binding.machine.roots = w.binding.machine.roots
  stack : w'.binding.machine.stack = w.binding.machine.stack
  frames : w'.binding.machine.frames = w.binding.machine.frames
  binding : w'.binding = { w.binding with machine := w'.binding.machine, cache := w'.binding.cache }
  drained : w.Drained → w'.Drained
  record? : ∀ id, w'.record? id =
    if id ∈ ids then (w.record? id).map Record.retired else w.record? id
  host : w'.host = w.hostWithout (ids.filterMap w.payload?)
  /-- No entry is new, and none is left of the userdata that have been taken apart. -/
  cache : ∀ {k e}, w'.binding.cache.find? k = some e → w.binding.cache.find? k = some e ∧
    ∀ id ∈ ids, ∀ r, w.record? id = some r → r.cacheKey w.binding.registry = k → e.userdata ≠ id
  firmLinks : w.Drained → w.WeakCache → ∀ r,
    w'.binding.machine.heap.firmLinks r = w.binding.machine.heap.firmLinks r
  leads : ∀ {R : Realm}, w.Sound R → w.Leads R ∅ w'

namespace Retires

theorem refl (w : World) : w.Retires [] w where
  heap := .refl _
  strings := rfl
  functions := rfl
  table {_ t} ht := ⟨t, ht, rfl, fun _ ↦ rfl⟩
  userdata {_ u} hu := ⟨u, hu, rfl, rfl⟩
  roots := rfl
  stack := rfl
  frames := rfl
  binding := rfl
  drained h := h
  record? _ := rfl
  host := rfl
  cache h := ⟨h, fun _ hid ↦ absurd hid List.not_mem_nil⟩
  firmLinks _ _ _ := rfl
  leads hw := .refl hw

theorem framed (h : w.Retires ids w') (hw : w.Framed) : w'.Framed := by
  have hextends : w.Extends w' := ⟨h.frames, ⟨[], by rw [h.stack, List.append_nil]⟩, by rw [h.binding]⟩
  exact hextends.framed hw

theorem settings (h : w.Retires ids w') : w'.binding.settings = w.binding.settings := by
  rw [h.binding]

theorem registry (h : w.Retires ids w') : w'.binding.registry = w.binding.registry := by
  rw [h.binding]

theorem weakCache (h : w.Retires ids w') (hweak : w.WeakCache) : w'.WeakCache := fun t' ht' ↦ by
  obtain ⟨t, ht, hwanes⟩ := h.heap.table ht'
  rw [hwanes.weakValues]
  rw [h.binding] at ht
  exact hweak t ht

/-- The fields of metatables are as they were. -/
theorem metafield (h : w.Retires ids w') (id : Nat) (name : String) :
    w'.binding.machine.metafield (.userdata id) name =
      w.binding.machine.metafield (.userdata id) name := by
  have hmetatable : w'.binding.machine.metatable? (.userdata id) =
      w.binding.machine.metatable? (.userdata id) := by
    show (w'.binding.machine.heap.userdata.get? id).bind _ =
      (w.binding.machine.heap.userdata.get? id).bind _
    cases hu : w.binding.machine.heap.userdata.get? id with
    | some u =>
      obtain ⟨u', hu', hmetatable, -⟩ := h.userdata hu
      rw [hu', Option.bind_some, Option.bind_some, hmetatable]
    | none =>
      cases hu' : w'.binding.machine.heap.userdata.get? id with
      | none => rfl
      | some u' =>
        obtain ⟨u, hu₀, -⟩ := h.heap.userdata hu'
        exact absurd (hu.symm.trans hu₀) (by simp)
  rw [Machine.metafield, hmetatable, Machine.metafield]
  cases w.binding.machine.metatable? (.userdata id) with
  | none => rfl
  | some mt =>
    simp only [Heap.rawGetField, h.strings]
    cases w.binding.machine.heap.strings.lookup name with
    | none => rfl
    | some s =>
      simp only [Heap.rawGet]
      cases ht : w.binding.machine.heap.tables.get? mt with
      | some t =>
        obtain ⟨t', ht', -, hkeys⟩ := h.table ht
        simp only [ht', Table.rawGet, Value.key?, Table.get, hkeys]
      | none =>
        cases ht' : w'.binding.machine.heap.tables.get? mt with
        | none => rfl
        | some t' =>
          obtain ⟨t, ht₀, -⟩ := h.heap.table ht'
          exact absurd (ht.symm.trans ht₀) (by simp)

theorem callable? (h : w.Retires ids w') (v : Value) :
    w'.binding.machine.callable? v = w.binding.machine.callable? v := by
  cases v with
  | function f => rw [Machine.callable?, Machine.callable?, h.functions]
  | _ => rfl

theorem record?_eq_none (h : w.Retires ids w') (hid : w.record? id = none) :
    w'.record? id = none := by
  rw [h.record?, hid]
  split <;> rfl

theorem tame (h : w.Retires ids w') (ht : w.Tame id) : w'.Tame id := by
  have hfinalizer : w'.finalizer id = w.finalizer id := h.metafield id "__gc"
  cases ht with
  | bridge hf =>
    refine .bridge ?_
    rw [h.callable?, hfinalizer]
    exact hf
  | none hrecord hf => exact .none (h.record?_eq_none hrecord) (by rwa [hfinalizer])
  | dead hrecord hf hdead =>
    exact .dead (h.record?_eq_none hrecord) (hfinalizer.trans hf) ((h.callable? _).trans hdead)

/-- **Some userdata are taken apart, and then others.** -/
theorem append {ids' : List Nat} (h : w.Retires ids w₁) (h' : w₁.Retires ids' w')
    (hids : ∀ id ∈ ids', id ∉ ids) : w.Retires (ids ++ ids') w' := by
  have hrecord : ∀ id ∈ ids', w₁.record? id = w.record? id := fun id hid ↦ by
    rw [h.record?, if_neg (hids id hid)]
  have hpayload : ids'.filterMap w₁.payload? = ids'.filterMap w.payload? :=
    List.filterMap_congr fun id hid ↦ by rw [payload?, hrecord id hid, payload?]
  refine ⟨h.heap.trans h'.heap, h'.strings.trans h.strings, h'.functions.trans h.functions,
    fun ht ↦ ?_, fun hu ↦ ?_, h'.roots.trans h.roots, h'.stack.trans h.stack,
    h'.frames.trans h.frames, ?_, fun hd ↦ h'.drained (h.drained hd), fun id ↦ ?_, ?_,
    fun {k e} he ↦ ?_, fun hd hweak r ↦ ?_, fun hw ↦ (h.leads hw).trans (h'.leads (h.leads hw).sound)⟩
  · obtain ⟨t₁, ht₁, hweak, hkeys⟩ := h.table ht
    obtain ⟨t', ht', hweak', hkeys'⟩ := h'.table ht₁
    exact ⟨t', ht', hweak'.trans hweak, fun s ↦ (hkeys' s).trans (hkeys s)⟩
  · obtain ⟨u₁, hu₁, hmetatable, hflag⟩ := h.userdata hu
    obtain ⟨u', hu', hmetatable', hflag'⟩ := h'.userdata hu₁
    exact ⟨u', hu', hmetatable'.trans hmetatable, hflag'.trans hflag⟩
  · rw [h'.binding, h.binding]
  · rw [h'.record?, h.record?]
    by_cases hmem : id ∈ ids'
    · simp [hmem, hids id hmem]
    · simp [hmem]
  · rw [h'.host, hostWithout, h.host, hpayload, hostWithout, hostWithout, ← List.foldl_append,
      ← List.filterMap_append]
  · obtain ⟨he₁, hnew⟩ := h'.cache he
    obtain ⟨he₀, hold⟩ := h.cache he₁
    refine ⟨he₀, fun id hid r hr hk ↦ ?_⟩
    rcases List.mem_append.1 hid with hid | hid
    · exact hold id hid r hr hk
    · exact hnew id hid r ((hrecord id hid).trans hr) (h.registry ▸ hk)
  · exact (h'.firmLinks (h.drained hd) (h.weakCache hweak) r).trans (h.firmLinks hd hweak r)

end Retires

/-- A machine in which a reference of a table may have been released. -/
structure Releases (m m' : Machine) : Prop where
  heap : ∃ tables, m' = { m with heap := { m.heap with tables := tables } }
  wanes : m.heap.Wanes m'.heap
  table : ∀ {id t}, m.heap.tables.get? id = some t →
    ∃ t', m'.heap.tables.get? id = some t' ∧ t'.weakValues = t.weakValues ∧
      ∀ s, t'.entries.find? (.string s) = t.entries.find? (.string s)

theorem Releases.refl (m : Machine) : Releases m m :=
  ⟨⟨m.heap.tables, rfl⟩, .refl _, fun {_ t} ht ↦ ⟨t, ht, rfl, fun _ ↦ rfl⟩⟩

theorem Releases.trans {m m' m'' : Machine} (h : Releases m m') (h' : Releases m' m'') :
    Releases m m'' := by
  obtain ⟨⟨tables, rfl⟩, hwanes, htable⟩ := h
  obtain ⟨⟨tables', rfl⟩, hwanes', htable'⟩ := h'
  refine ⟨⟨tables', rfl⟩, hwanes.trans hwanes', fun ht ↦ ?_⟩
  obtain ⟨t₁, ht₁, hweak, hkeys⟩ := htable ht
  obtain ⟨t', ht', hweak', hkeys'⟩ := htable' ht₁
  exact ⟨t', ht', hweak'.trans hweak, fun s ↦ (hkeys' s).trans (hkeys s)⟩

theorem releases_unreference (m : Machine) (table : Nat) (ref : Int) :
    Releases m (m.unreference table ref) where
  heap := ⟨_, rfl⟩
  wanes := .modifyTable m.heap table fun t ↦ .unreference t ref
  table {id t} ht := by
    have hget : (m.unreference table ref).heap.tables.get? id =
        if table = id then (m.heap.tables.get? id).map (·.unreference ref)
        else m.heap.tables.get? id := m.heap.tables.get?_modify table id _
    rw [hget, ht, Option.map_some]
    split
    · refine ⟨_, rfl, t.weakValues_unreference ref, fun s ↦ ?_⟩
      rw [Table.unreference]
      split
      · exact t.entries.find?_erase_of_ne (by simp)
      · rfl
    · exact ⟨t, rfl, rfl, fun _ ↦ rfl⟩

/-- Releasing the references of pins takes nothing apart. -/
theorem retires_flushed (w : World) : w.Retires [] (Exec.flushed w) := by
  have hfold (refs : List Int) (m : Machine) :
      Releases m (refs.foldl (fun m r ↦ m.unreference w.binding.tables.pinned r) m) := by
    induction refs generalizing m with
    | nil => exact .refl m
    | cons r refs ih => exact (releases_unreference m _ r).trans (ih _)
  obtain ⟨⟨tables, hm⟩, hwanes, htable⟩ :=
    hfold (w.pins[w.binding.number]?.getD {}).released w.binding.machine
  have hmachine : (Exec.flushed w).binding.machine =
      { w.binding.machine with heap := { w.binding.machine.heap with tables := tables } } := hm
  refine ⟨hwanes, ?_, ?_, htable, fun {_ u} hu ↦ ⟨u, ?_, rfl, rfl⟩, ?_, ?_, ?_, rfl,
    fun _ ↦ w.drained_flushed, fun id ↦ ?_, rfl,
    fun he ↦ ⟨he, fun _ hid ↦ absurd hid List.not_mem_nil⟩,
    fun hd _ r ↦ congrArg (fun w : World ↦ w.binding.machine.heap.firmLinks r) hd.flushed,
    fun hw ↦ .quiet hw (Exec.quiet_flushed hw)⟩
  · rw [hmachine]
  · rw [hmachine]
  · rwa [hmachine]
  · rw [hmachine]
    rfl
  · rw [hmachine]
  · rw [hmachine]
  · rw [World.record?, hmachine]
    rfl

/-- The record of a userdata is discarded with what it owns. -/
theorem Releases.retires {r : Record} (hid : w.record? id = some r) {m : Machine}
    (hm : Releases w.binding.machine m) {c : IdentityCache}
    (hc : ∀ {k e}, c.find? k = some e → w.binding.cache.find? k = some e ∧
      (r.cacheKey w.binding.registry = k → e.userdata ≠ id))
    (hfirm : w.WeakCache → ∀ x, m.heap.firmLinks x = w.binding.machine.heap.firmLinks x)
    (hleads : ∀ {R : Realm}, w.Sound R →
      w.Leads R ∅ (w.withBinding (m.modifyRecord id Record.retired) c)) :
    w.Retires [id] { w.withBinding (m.modifyRecord id Record.retired) c with
      host := w.hostWithout r.payload.toList } := by
  obtain ⟨⟨tables, rfl⟩, hwanes, htable⟩ := hm
  refine ⟨hwanes.trans (.modifyUserdata _ id fun u ↦ ?_), rfl, rfl, htable, fun {id' u} hu ↦ ?_, rfl,
    rfl, rfl, rfl, fun hd ↦ hd, fun id' ↦ ?_, ?_, fun he ↦ ⟨(hc he).1, fun id' hid' r' hr' hk ↦ ?_⟩,
    fun _ hweak x ↦ (Heap.firmLinks_modifyUserdata _ id (fun u ↦ ?_) x).trans (hfirm hweak x),
    fun hw ↦ (hleads hw).trans (.host (hleads hw).sound ?_)⟩
  · split <;> exact ⟨rfl, rfl⟩
  · exact w.binding.machine.exists_modifyRecord id Record.retired hu
  · simp only [List.mem_singleton]
    exact Machine.record?_modifyRecord w.binding.machine id id' Record.retired
  · show w.hostWithout r.payload.toList = _
    rw [List.filterMap_cons, payload?, hid, Option.bind_some]
    cases r.payload <;> rfl
  · rw [List.mem_singleton] at hid'
    subst hid'
    obtain rfl := Option.some.inj (hid.symm.trans hr')
    exact (hc he).2 hk
  · split <;> exact ⟨rfl, rfl⟩
  · show Host.Evolves _ w.host (w.hostWithout r.payload.toList)
    cases r.payload with
    | none => exact Host.Evolves.lasting.refl _
    | some p => exact Host.Evolves.lasting.dropPayload _ p

/-- **The finalizer of the bridge takes one userdata apart.** -/
theorem retires_finalized (w : World) (id : Nat) : w.Retires [id] (w.finalized id) := by
  cases hid : w.record? id with
  | none =>
    rw [finalized_of_none hid]
    refine { Retires.refl w with record? := fun id' ↦ ?_, host := ?_, cache := fun he ↦ ⟨he, ?_⟩ }
    · split
      · rename_i hmem
        rw [List.mem_singleton.1 hmem, hid]
        rfl
      · rfl
    · simp [payload?, hid, hostWithout]
    · intro id' hid' r hr
      rw [List.mem_singleton.1 hid', hid] at hr
      exact absurd hr (by simp)
  | some r =>
    have hleads {R : Realm} (hw : w.Sound R) : w.Leads R ∅ (w.finalizing id r) := .finalize hw hid
    rw [finalized, hid]
    simp only [finalizing] at hleads ⊢
    cases he : w.binding.cache.entryOf (r.cacheKey w.binding.registry) id with
    | none =>
      rw [he] at hleads
      refine (Releases.refl w.binding.machine).retires hid (fun {k e} hk ↦ ⟨hk, fun hkey heq ↦ ?_⟩)
        (fun _ _ ↦ rfl) hleads
      have hsome : w.binding.cache.entryOf k id = some e := IdentityCache.entryOf_eq_some _ |>.2 ⟨hk, heq⟩
      rw [← hkey, he] at hsome
      exact absurd hsome (by simp)
    | some e =>
      rw [he] at hleads
      refine (releases_unreference w.binding.machine w.binding.tables.cache e.reference).retires hid
        (fun {k e'} hk ↦ ?_) (fun hweak x ↦ Heap.firmLinks_modifyTable _ _ (fun t ht ↦ ?_) x) hleads
      · obtain ⟨hne, hk⟩ := IdentityCache.find?_erase_eq_some _ |>.1 hk
        exact ⟨hk, fun hkey ↦ absurd hkey.symm hne⟩
      · exact ⟨hweak t ht, (t.weakValues_unreference _).trans (hweak t ht),
          (Table.Wanes.unreference t _).metatable⟩

end World

namespace Exec

variable {w : World}

/-- **Userdata with the finalizer of the bridge, or none, are taken apart in their turns**, each once. -/
theorem ends_finalizers (hw : w.Framed) (hdrained : w.Drained) {ids : List Nat}
    (htame : ∀ id ∈ ids, w.Tame id) (hids : ids.Nodup)
    (hdepth : w.binding.machine.frames.length < w.binding.settings.maxDepth) (fuel : Nat) :
    Ends (ids.forM (runFinalizer (runner fuel))) (fun _ w' ↦ w.Retires ids w') (fun _ _ ↦ False)
      w := by
  induction ids generalizing w with
  | nil => exact .refl w
  | cons id ids ih =>
    obtain ⟨hid, hids⟩ := List.nodup_cons.1 hids
    rw [List.forM, ends_bind]
    refine (ends_runFinalizer_bridge hw hdrained.flushed (htame id List.mem_cons_self) hdepth fuel).imp
      (fun _ w₁ h ↦ ?_) fun _ _ h ↦ h
    have hretires : w.Retires [id] w₁ := h ▸ w.retires_finalized id
    have hdepth₁ : w₁.binding.machine.frames.length < w₁.binding.settings.maxDepth := by
      rw [hretires.frames, hretires.settings]
      exact hdepth
    refine (ih (hretires.framed hw) (hretires.drained hdrained)
      (fun id' hid' ↦ hretires.tame (htame id' (List.mem_cons_of_mem _ hid'))) hids hdepth₁).imp
        (fun _ w' h ↦ hretires.append h fun id' hid' hmem ↦ ?_) fun _ _ h ↦ h
    exact hid (List.mem_singleton.1 hmem ▸ hid')

end Exec

end ObjectBridge
