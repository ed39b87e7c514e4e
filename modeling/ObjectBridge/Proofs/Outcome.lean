import ObjectBridge.Call
import ObjectBridge.Proofs.SlotStore

/-!
# What a computation comes to

`Exec.Ends x Q E w` says of a computation that starts in the world `w`: if it yields a value, value
and world afterwards satisfy `Q`, and if it is interrupted, interruption and world afterwards satisfy
`E`. Changes made before an interruption stay, so `E` is about the world as the interruption left
it. The rules below take a computation apart: one rule for each way of putting computations together,
and one for each primitive.
-/

universe u

namespace ObjectBridge

namespace Exec

variable {α β : Type}

/-- What a computation comes to: its value or its interruption, and the world afterwards. -/
def outcome (x : Exec α) (w : World) : Except Interrupt α × World :=
  (x.run w).run

/-- **A computation ends well** in `Q`, or in `E` if it is interrupted. -/
def Ends (x : Exec α) (Q : α → World → Prop) (E : Interrupt → World → Prop) (w : World) : Prop :=
  match x.outcome w with
  | (.ok a, w') => Q a w'
  | (.error i, w') => E i w'

variable {x : Exec α} {Q Q' : α → World → Prop} {E E' : Interrupt → World → Prop} {w : World}

theorem ends_iff : Ends x Q E w ↔
    (∀ a w', x.outcome w = (.ok a, w') → Q a w') ∧
      ∀ i w', x.outcome w = (.error i, w') → E i w' := by
  rw [Ends]
  rcases x.outcome w with ⟨i | a, w'⟩
  · simp
  · simp

theorem Ends.ok (h : Ends x Q E w) {a : α} {w' : World} (hx : x.outcome w = (.ok a, w')) :
    Q a w' :=
  (ends_iff.1 h).1 a w' hx

theorem Ends.error (h : Ends x Q E w) {i : Interrupt} {w' : World}
    (hx : x.outcome w = (.error i, w')) : E i w' :=
  (ends_iff.1 h).2 i w' hx

/-- What holds however a computation ends. -/
theorem Ends.world {P : World → Prop} (h : Ends x (fun _ ↦ P) (fun _ ↦ P) w) : P (x.outcome w).2 := by
  rcases hx : x.outcome w with ⟨i | a, w'⟩
  · exact h.error hx
  · exact h.ok hx

/-- A computation that is never interrupted ends with a value. -/
theorem Ends.exists_ok (h : Ends x Q (fun _ _ ↦ False) w) :
    ∃ a w', x.outcome w = (.ok a, w') ∧ Q a w' := by
  rcases hx : x.outcome w with ⟨i | a, w'⟩
  · exact (h.error hx).elim
  · exact ⟨a, w', rfl, h.ok hx⟩

/-- The outcome of a computation whose value or interruption is known. -/
theorem outcome_eq_of_fst {r : Except Interrupt α} (h : (x.outcome w).1 = r) :
    x.outcome w = (r, (x.outcome w).2) :=
  Prod.ext h rfl

/-- Both postconditions may be weakened. -/
theorem Ends.imp (h : Ends x Q E w) (hQ : ∀ a w', Q a w' → Q' a w')
    (hE : ∀ i w', E i w' → E' i w') : Ends x Q' E' w :=
  ends_iff.2 ⟨fun a w' hx ↦ hQ a w' (h.ok hx), fun i w' hx ↦ hE i w' (h.error hx)⟩

/-- Two results about one computation hold together. -/
theorem Ends.and (h : Ends x Q E w) (h' : Ends x Q' E' w) :
    Ends x (fun a w' ↦ Q a w' ∧ Q' a w') (fun i w' ↦ E i w' ∧ E' i w') w :=
  ends_iff.2 ⟨fun _ _ hx ↦ ⟨h.ok hx, h'.ok hx⟩, fun _ _ hx ↦ ⟨h.error hx, h'.error hx⟩⟩

/-! ### Putting computations together -/

@[simp]
theorem ends_pure (a : α) : Ends (pure a) Q E w ↔ Q a w :=
  Iff.rfl

@[simp]
theorem ends_bind (x : Exec α) (f : α → Exec β) {Q : β → World → Prop} :
    Ends (x >>= f) Q E w ↔ Ends x (fun a ↦ Ends (f a) Q E) E w := by
  have hbind : (x >>= f).outcome w =
      ExceptT.bindCont f (x.outcome w).1 (x.outcome w).2 := rfl
  rw [Ends, Ends, hbind]
  rcases x.outcome w with ⟨i | a, w'⟩ <;> rfl

@[simp]
theorem ends_map (f : α → β) (x : Exec α) {Q : β → World → Prop} :
    Ends (f <$> x) Q E w ↔ Ends x (fun a ↦ Q (f a)) E w := by
  rw [← bind_pure_comp, ends_bind]
  rfl

@[simp]
theorem ends_throw (i : Interrupt) : Ends (throw i : Exec α) Q E w ↔ E i w :=
  Iff.rfl

@[simp]
theorem ends_fail (f : Failure) : Ends (fail f : Exec α) Q E w ↔ E (.failure f) w :=
  Iff.rfl

@[simp]
theorem ends_panic (text : Option String) : Ends (panic text : Exec α) Q E w ↔ E (.panic text) w :=
  Iff.rfl

@[simp]
theorem ends_tryCatch (x : Exec α) (f : Interrupt → Exec α) :
    Ends (tryCatch x f) Q E w ↔ Ends x Q (fun i ↦ Ends (f i) Q E) w := by
  have htry : (tryCatch x f : Exec α).outcome w = match x.outcome w with
      | (.ok a, w') => (.ok a, w')
      | (.error i, w') => (f i).outcome w' := by
    simp only [outcome, tryCatch, tryCatchThe, MonadExceptOf.tryCatch, ExceptT.tryCatch,
      ExceptT.run, ExceptT.mk, bind, StateT.bind]
    rcases x w with ⟨i | a, w'⟩ <;> rfl
  rw [Ends, Ends, htry]
  rcases x.outcome w with ⟨i | a, w'⟩ <;> rfl

@[simp]
theorem ends_guarded (x : Exec α) :
    Ends (guarded x) Q E w ↔
      Ends x
        (fun a w' ↦ Q a { w' with
          binding.machine := w'.binding.machine.setTop w.binding.machine.top })
        (fun i w' ↦ E i { w' with
          binding.machine := w'.binding.machine.setTop w.binding.machine.top }) w := by
  have hrun : (guarded x).outcome w = ((x.outcome w).1, { (x.outcome w).2 with
      binding.machine :=
        (x.outcome w).2.binding.machine.setTop w.binding.machine.top }) := rfl
  rw [Ends, Ends, hrun]
  rcases x.outcome w with ⟨i | a, w'⟩ <;> rfl

/-! ### Primitives -/

@[simp]
theorem ends_get {Q : World → World → Prop} : Ends (get : Exec World) Q E w ↔ Q w w :=
  Iff.rfl

@[simp]
theorem ends_modify (f : World → World) {Q : Unit → World → Prop} :
    Ends (modify f : Exec Unit) Q E w ↔ Q () (f w) :=
  Iff.rfl

@[simp]
theorem ends_binding {Q : Binding → World → Prop} : Ends binding Q E w ↔ Q w.binding w :=
  Iff.rfl

@[simp]
theorem ends_machine {Q : Machine → World → Prop} :
    Ends machine Q E w ↔ Q w.binding.machine w :=
  Iff.rfl

@[simp]
theorem ends_registry {Q : Registry → World → Prop} :
    Ends registry Q E w ↔ Q w.binding.registry w :=
  Iff.rfl

@[simp]
theorem ends_host {Q : Host → World → Prop} : Ends host Q E w ↔ Q w.host w :=
  Iff.rfl

@[simp]
theorem ends_modifyMachine (f : Machine → Machine) {Q : Unit → World → Prop} :
    Ends (modifyMachine f) Q E w ↔ Q () { w with binding.machine := f w.binding.machine } :=
  Iff.rfl

@[simp]
theorem ends_updateMachine (f : Machine → α × Machine) :
    Ends (updateMachine f) Q E w ↔
      Q (f w.binding.machine).1 { w with binding.machine := (f w.binding.machine).2 } :=
  Iff.rfl

@[simp]
theorem ends_modifyCache (f : IdentityCache → IdentityCache) {Q : Unit → World → Prop} :
    Ends (modifyCache f) Q E w ↔ Q () { w with binding.cache := f w.binding.cache } :=
  Iff.rfl

@[simp]
theorem ends_modifyHost (f : Host → Host) {Q : Unit → World → Prop} :
    Ends (modifyHost f) Q E w ↔ Q () { w with host := f w.host } :=
  Iff.rfl

@[simp]
theorem ends_updateHost (f : Host → α × Host) :
    Ends (updateHost f) Q E w ↔ Q (f w.host).1 { w with host := (f w.host).2 } :=
  Iff.rfl

@[simp]
theorem ends_modifyPins (owner : Nat) (f : PinTable → PinTable) {Q : Unit → World → Prop} :
    Ends (modifyPins owner f) Q E w ↔ Q () { w with pins := w.pins.modify owner f } :=
  Iff.rfl

@[simp]
theorem ends_push (v : Value) {Q : Unit → World → Prop} :
    Ends (push v) Q E w ↔
      Q () { w with binding.machine := w.binding.machine.push v } :=
  Iff.rfl

theorem ends_reserve (count bytes : Nat) {Q : Unit → World → Prop} (hQ : Q () w)
    (hE : ∀ text, E (.panic text) w) : Ends (reserve count bytes) Q E w := by
  rw [reserve]
  split
  · exact hQ
  · exact hE _

@[simp]
theorem ends_ofExcept_ok (a : α) : Ends (ofExcept (.ok a)) Q E w ↔ Q a w :=
  Iff.rfl

@[simp]
theorem ends_ofExcept_error (f : Failure) :
    Ends (ofExcept (.error f) : Exec α) Q E w ↔ E (.failure f) w :=
  Iff.rfl

end Exec

/-! ### Steps of a call -/

namespace World

/-- What a call of the value at a stack position comes to. -/
def Calls (w : World) (pos : Nat) (c : Callable) : Prop :=
  w.binding.machine.callable? (w.binding.machine.stack[pos]?.getD .nil) = some c ∨
    w.binding.machine.callable? (w.binding.machine.stack[pos]?.getD .nil) = none ∧
      w.binding.machine.callable?
        (w.binding.machine.metafield (w.binding.machine.stack[pos]?.getD .nil) "__call") = some c

/-- The world with other frames. -/
def withFrames (w : World) (frames : List Nat) : World :=
  { w with binding.machine := { w.binding.machine with frames := frames } }

end World

namespace Exec

variable {w : World}

/-- The world in which the references of pins that are gone have been released. -/
def flushed (w : World) : World :=
  { w with
    pins := w.pins.modify w.binding.number fun t ↦ { t with released := [] }
    binding.machine := ((w.pins[w.binding.number]?.getD {}).released).foldl
      (fun m r ↦ m.unreference w.binding.tables.pinned r) w.binding.machine }

theorem ends_flushPins {Q : Unit → World → Prop} {E : Interrupt → World → Prop} :
    Ends flushPins Q E w ↔ Q () (flushed w) :=
  Iff.rfl

/-- Releasing references of a table leaves everything but that table alone. -/
private theorem foldl_unreference (m : Machine) (table : Nat) (refs : List Int) :
    ∃ tables, refs.foldl (fun m r ↦ m.unreference table r) m =
        { m with heap := { m.heap with tables := tables } } ∧
      ∀ id, table ≠ id → tables.get? id = m.heap.tables.get? id := by
  induction refs generalizing m with
  | nil => exact ⟨m.heap.tables, rfl, fun _ _ ↦ rfl⟩
  | cons r refs ih =>
    obtain ⟨tables, hfold, htables⟩ := ih (m.unreference table r)
    refine ⟨tables, hfold, fun id hid ↦ (htables id hid).trans ?_⟩
    rw [Machine.unreference, Heap.modifyTable, SlotStore.get?_modify, if_neg hid]

/-- Releasing the references of pins changes only the table of pins. -/
theorem machine_flushed (w : World) :
    ∃ tables, (flushed w).binding.machine =
        { w.binding.machine with heap := { w.binding.machine.heap with tables := tables } } ∧
      ∀ id, w.binding.tables.pinned ≠ id →
        tables.get? id = w.binding.machine.heap.tables.get? id :=
  foldl_unreference _ _ _

theorem ends_closeFrame {Q : Unit → World → Prop} {E : Interrupt → World → Prop} :
    Ends closeFrame Q E w ↔ Q () (w.withFrames w.binding.machine.frames.tail) :=
  Iff.rfl

end Exec

end ObjectBridge
