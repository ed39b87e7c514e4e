import ObjectBridge.Proofs.Reached

/-!
# List containers are lists

The shapes of list containers offer different primitives, and scripts cannot tell them apart: what an
operation answers, and what it makes of the container, is what it would answer of a plain list whose
positions count from 1, and make of it (`ListOp.apply`). The shape shows in nothing but the name that
failures mention (`ListContainer.refines_list`).

An operation first works out one change and then makes it. The change is always within the bounds of
the primitive that makes it (`Exec.worksOut_newIndexEdit` and its siblings), so no operation panics,
and an operation that fails has not come to its change.
-/

namespace ObjectBridge

/-! ### Primitives -/

namespace ListEdit

/-- The slot of a change is one that the primitive is meant for, whatever the shape. -/
def InBounds (length : Nat) : ListEdit → Prop
  | set slot _ => slot < length
  | insert slot _ => slot ≤ length
  | remove slot => slot < length

/-- What a change makes of a list. -/
def result (xs : List Datum) : ListEdit → List Datum
  | set slot x => xs.set slot x
  | insert slot x => xs.take slot ++ x :: xs.drop slot
  | remove slot => xs.take slot ++ xs.drop (slot + 1)

end ListEdit

/-- **Within bounds all shapes make the same of a change.** -/
theorem ListShape.edit?_of_inBounds (shape : ListShape) {e : ListEdit} {xs : List Datum}
    (h : e.InBounds xs.length) : shape.edit? e xs = some (e.result xs) := by
  cases e with
  | set slot x =>
    cases shape with
    | vector => exact if_pos h
    | deque => exact if_pos h
    | linked => rfl
  | insert slot x =>
    have hinsert := insertIdx_eq_take_append_drop h x
    cases shape with
    | vector => exact (if_pos h).trans (congrArg some hinsert)
    | deque => exact (if_pos h).trans (congrArg some hinsert)
    | linked => exact (if_pos h).trans (congrArg some (List.append_cons ..).symm)
  | remove slot =>
    have herase := List.eraseIdx_eq_take_drop_succ xs slot
    cases shape with
    | vector => exact (if_pos h).trans (congrArg some herase)
    | deque => exact congrArg some herase
    | linked =>
      refine (if_pos (Nat.le_of_lt h)).trans (congrArg some ?_)
      rw [List.tail_drop]
      rfl

/-! ### A plain list -/

/-- The operations that scripts have for the list containers. -/
inductive ListOp where
  | index
  | newIndex
  | insert
  | remove
  | clear
  | length
  /-- A step of a walk. -/
  | next
  deriving DecidableEq

/-- Why an operation fails. -/
inductive ListFailure where
  /-- The first argument is of another kind. -/
  | noInteger (kind : String)
  /-- The first argument is no position that the operation takes. -/
  | noPosition (index : Int) (length : Nat)
  /-- The second argument is no item. -/
  | badItem (m : Mismatch)
  /-- Scripts have no value for the item. -/
  | unrepresentable (n : Unrepresentable)
  deriving DecidableEq

/-- A failure as a list that goes by some name reports it. -/
def ListFailure.report (name : String) : ListFailure → Failure
  | noInteger kind => .typeMismatch 2 "integer" kind
  | noPosition index length => .outOfRange name index length
  | badItem m => .badElement .value name m
  | unrepresentable n => .unrepresentable n

/-- What an operation answers of a list, and what it makes of the list. -/
abbrev ListAnswer :=
  Except ListFailure (List Plain × List Datum)

namespace ListOp

/-- The integer that an argument is. -/
def integer (k : Value) : Except ListFailure Int64 :=
  match k.integer? with
  | some i => .ok i
  | none => .error (.noInteger k.kindName)

/-- An argument as a position, counted from 1 and up to `room` behind the last of a list of some
length. -/
def position (length room : Nat) (k : Value) : Except ListFailure Nat := do
  let i ← integer k
  if 1 ≤ i.toInt ∧ i.toInt ≤ ↑(length + room) then return i.toInt.toNat
  else throw (.noPosition i.toInt length)

/-- An argument as an item. -/
def item (type : ScalarType) (texts : Nat → Option String) (v : Value) : Except ListFailure Datum :=
  (type.read texts v).mapError .badItem

/-- An item as a script sees it. -/
def shown (type : ScalarType) (d : Datum) : Except ListFailure Plain :=
  (type.write d).mapError .unrepresentable

/-- What an operation with arguments `k` and `v` answers of a list, and what it makes of it. -/
def apply (type : ScalarType) (texts : Nat → Option String) (k v : Value) (xs : List Datum) :
    ListOp → ListAnswer
  | index => do
    let p ← position xs.length 0 k
    let q ← shown type (xs.getD (p - 1) .absent)
    return ([q], xs)
  | newIndex => do
    let p ← position xs.length 1 k
    let d ← item type texts v
    return ([], if p = xs.length + 1 then xs ++ [d] else xs.set (p - 1) d)
  | insert => do
    let p ← position xs.length 1 k
    let d ← item type texts v
    return ([.boolean true], xs.take (p - 1) ++ d :: xs.drop (p - 1))
  | remove => do
    let p ← position xs.length 0 k
    return ([], xs.take (p - 1) ++ xs.drop p)
  | clear => return ([], [])
  | length => return ([.integer (Int64.ofNat xs.length)], xs)
  | next => do
    let i ← integer k
    match if 0 ≤ i.toInt then xs[i.toInt.toNat]? else none with
    | some d =>
      let q ← shown type d
      return ([.integer (i + 1), q], xs)
    | none => return ([.nil], xs)

/-- The function of the bridge that makes an operation on containers of a kind. -/
def builtin (kind : ContainerKind) : ListOp → Builtin
  | index => .containerIndex
  | newIndex => .containerNewIndex
  | insert => .insert
  | remove => .remove
  | clear => .clear
  | length => .containerLength
  | next => .advance kind

end ListOp

/-! ### Arguments -/

/-- The list at an address holds some items. -/
def World.Lists (w : World) (a : Address) (xs : List Datum) : Prop :=
  w.host.memory.container? a = some (.list xs)

instance (w : World) (a : Address) (xs : List Datum) : Decidable (w.Lists a xs) :=
  match h : w.host.memory.container? a with
  | some (.list ys) => decidable_of_iff (ys = xs) (by simp [World.Lists, h])
  | some (.map _) => isFalse (by simp [World.Lists, h])
  | none => isFalse (by simp [World.Lists, h])

/-- What an operation answers of a list in a world, where its arguments are. -/
def World.answer (w : World) (type : ScalarType) (xs : List Datum) (op : ListOp) : ListAnswer :=
  op.apply type w.binding.machine.heap.strings.text? (w.binding.machine.valueAt 2)
    (w.binding.machine.valueAt 3) xs

namespace Exec

variable {w : World} {a : Address} {xs : List Datum} {shape : ListShape} {type : ScalarType}

theorem ends_listAt (h : w.Lists a xs) {Q : List Datum → World → Prop}
    {E : Interrupt → World → Prop} : Ends (listAt a) Q E w ↔ Q xs w := by
  simp only [listAt, ends_bind, ends_host]
  rw [h]
  rfl

theorem ends_position {name : String} {Q : Int64 → World → Prop} {E : Interrupt → World → Prop}
    (hQ : ∀ i, ListOp.integer (w.binding.machine.valueAt 2) = .ok i → Q i w)
    (hE : ∀ f, ListOp.integer (w.binding.machine.valueAt 2) = .error f →
      E (.failure (f.report name)) w) : Ends (position 2) Q E w := by
  rw [ListOp.integer] at hQ hE
  simp only [position, valueAt, ends_bind, ends_machine, ends_pure]
  cases hk : (w.binding.machine.valueAt 2).integer? with
  | none => exact hE _ (by rw [hk])
  | some i => exact hQ i (by rw [hk])

/-- The slot of a position argument is the one before the position. -/
theorem ends_slotArgument (h : w.Lists a xs) {room : Nat} {Q : Nat → World → Prop}
    {E : Interrupt → World → Prop}
    (hQ : ∀ p, 1 ≤ p → p ≤ xs.length + room →
      ListOp.position xs.length room (w.binding.machine.valueAt 2) = .ok p → Q (p - 1) w)
    (hE : ∀ f, ListOp.position xs.length room (w.binding.machine.valueAt 2) = .error f →
      E (.failure (f.report shape.name)) w) :
    Ends (slotArgument shape a room) Q E w := by
  rw [slotArgument, ends_bind]
  refine ends_position (fun i hi ↦ ?_) fun f hf ↦ hE f (by rw [ListOp.position, hf]; rfl)
  rw [ends_bind, ends_listAt h]
  show Ends (ofExcept (slotIn shape i (xs.length + room) xs.length)) Q E w
  have hposition : ListOp.position xs.length room (w.binding.machine.valueAt 2) =
      if 1 ≤ i.toInt ∧ i.toInt ≤ ↑(xs.length + room) then .ok i.toInt.toNat
      else .error (.noPosition i.toInt xs.length) := by
    rw [ListOp.position, hi]
    rfl
  -- Both sides test the same bounds; positions count from 1, slots from 0.
  rw [slotIn]
  split
  · rename_i hin
    exact hQ i.toInt.toNat (by omega) (by omega) (by rw [hposition, if_pos hin])
  · rename_i hout
    exact hE _ (by rw [hposition, if_neg hout])

/-- An argument is converted, or the conversion tells why it cannot be. -/
theorem ends_converted {idx : Int} {name : String} {role : ElementRole} {Q : Datum → World → Prop}
    {E : Interrupt → World → Prop}
    (hQ : ∀ d, type.read w.binding.machine.heap.strings.text? (w.binding.machine.valueAt idx) = .ok d →
      Q d w)
    (hE : ∀ m, type.read w.binding.machine.heap.strings.text? (w.binding.machine.valueAt idx) =
      .error m → E (.failure (.badElement role name m)) w) :
    Ends (element idx type name role) Q E w := by
  rw [element, ends_bind, ends_machine]
  cases hv : type.read w.binding.machine.heap.strings.text? (w.binding.machine.valueAt idx) with
  | ok d => exact hQ d hv
  | error m => exact hE m hv

theorem ends_element {name : String} {Q : Datum → World → Prop} {E : Interrupt → World → Prop}
    (hQ : ∀ d, ListOp.item type w.binding.machine.heap.strings.text?
      (w.binding.machine.valueAt 3) = .ok d → Q d w)
    (hE : ∀ f, ListOp.item type w.binding.machine.heap.strings.text?
      (w.binding.machine.valueAt 3) = .error f → E (.failure (f.report name)) w) :
    Ends (element 3 type name .value) Q E w := by
  rw [ListOp.item] at hQ hE
  refine ends_converted (fun d hd ↦ hQ d (by rw [hd]; rfl)) fun m hm ↦ ?_
  exact hE (.badItem m) (by rw [hm]; rfl)

/-! ### Changes -/

private theorem ok_bind {α β : Type} (b : α) (g : α → Except ListFailure β) : (.ok b >>= g) = g b :=
  rfl

/-- A computation works out the change that an operation makes: it is within bounds, and it makes of
the list what the operation makes of it. If there is no such change then it tells so. -/
def WorksOut (name : String) (x : Exec ListEdit) (w : World) (xs : List Datum) (ps : List Plain)
    (answer : ListAnswer) : Prop :=
  Ends x (fun e w' ↦ w' = w ∧ e.InBounds xs.length ∧ answer = .ok (ps, e.result xs))
    (fun i w' ↦ w' = w ∧ ∃ f, i = .failure (f.report name) ∧ answer = .error f) w

theorem worksOut_newIndexEdit (h : w.Lists a xs) :
    WorksOut shape.name (newIndexEdit shape type a) w xs [] (w.answer type xs .newIndex) := by
  rw [WorksOut, newIndexEdit, ends_bind, World.answer, ListOp.apply]
  refine ends_slotArgument h (fun p hle hp hk ↦ ?_) fun f hf ↦ ⟨rfl, f, rfl, by rw [hf]; rfl⟩
  rw [hk, ends_bind]
  refine ends_element (fun d hd ↦ ?_) fun f hf ↦ ⟨rfl, f, rfl, by rw [hf]; rfl⟩
  rw [hd, ends_bind, ends_listAt h]
  -- Behind the last position the change is an insertion, elsewhere an overwriting.
  by_cases hend : p = xs.length + 1
  · subst hend
    rw [Nat.add_sub_cancel, if_pos rfl]
    refine ⟨rfl, Nat.le_refl _, ?_⟩
    simp [ok_bind, ListEdit.result, pure, Except.pure]
  · rw [if_neg (by omega)]
    refine ⟨rfl, show p - 1 < xs.length by omega, ?_⟩
    simp [ok_bind, ListEdit.result, pure, Except.pure, hend]

theorem worksOut_insertEdit (h : w.Lists a xs) :
    WorksOut shape.name (insertEdit shape type a) w xs [.boolean true] (w.answer type xs .insert) := by
  rw [WorksOut, insertEdit, ends_bind, World.answer, ListOp.apply]
  refine ends_slotArgument h (fun p hle hp hk ↦ ?_) fun f hf ↦ ⟨rfl, f, rfl, by rw [hf]; rfl⟩
  rw [hk, ends_bind]
  refine ends_element (fun d hd ↦ ?_) fun f hf ↦ ⟨rfl, f, rfl, by rw [hf]; rfl⟩
  rw [hd]
  exact ⟨rfl, show p - 1 ≤ xs.length by omega, rfl⟩

theorem worksOut_removeEdit (h : w.Lists a xs) :
    WorksOut shape.name (removeEdit shape a) w xs [] (w.answer type xs .remove) := by
  rw [WorksOut, removeEdit, ends_bind, World.answer, ListOp.apply]
  refine ends_slotArgument h (fun p hle hp hk ↦ ?_) fun f hf ↦ ⟨rfl, f, rfl, by rw [hf]; rfl⟩
  rw [hk]
  refine ⟨rfl, show p - 1 < xs.length by omega, ?_⟩
  simp [ok_bind, ListEdit.result, pure, Except.pure, Nat.sub_add_cancel hle]

/-- Within bounds, a change is made. -/
theorem ends_editList (h : w.Lists a xs) {e : ListEdit} (he : e.InBounds xs.length)
    {Q : Unit → World → Prop} {E : Interrupt → World → Prop} : Ends (editList shape a e) Q E w ↔
      Q () { w with host.memory := w.host.memory.write a (.container (.list (e.result xs))) } := by
  rw [editList, ends_bind, ends_listAt h, shape.edit?_of_inBounds he]
  rfl

end Exec

/-! ### Operations -/

/-- What an operation does that answers: it pushes its answer, and the list holds other items. -/
structure World.Answered (w : World) (a : Address) (ps : List Plain) (ys : List Datum)
    (w' : World) : Prop where
  machine : w'.binding.machine = ps.foldl Machine.pushPlain w.binding.machine
  lists : w'.Lists a ys
  elsewhere : ∀ b ≠ a, w'.host.memory.cells.find? b = w.host.memory.cells.find? b

/-- What an operation does that fails. -/
structure World.Refused (w w' : World) : Prop where
  host : w'.host = w.host
  userdata : w'.binding.machine.heap.userdata = w.binding.machine.heap.userdata

namespace Exec

variable {w : World} {a : Address} {xs : List Datum} {shape : ListShape} {type : ScalarType}

/-- An operation on the list at an address, which goes by some name, does what an answer of a plain
list says. -/
def Obeys (name : String) (x : Exec Nat) (w : World) (a : Address) (answer : ListAnswer) : Prop :=
  Ends x (fun n w' ↦ ∃ ps ys, answer = .ok (ps, ys) ∧ n = ps.length ∧ w.Answered a ps ys w')
    (fun i w' ↦ ∃ f, answer = .error f ∧ i = .failure (f.report name) ∧ w.Refused w') w

/-- Nothing but values is pushed. -/
theorem answered_of_pushed (h : w.Lists a xs) (ps : List Plain) :
    w.Answered a ps xs { w with binding.machine := ps.foldl Machine.pushPlain w.binding.machine } :=
  ⟨rfl, h, fun _ _ ↦ rfl⟩

/-- A computation pushes some values, tells their number, and does nothing else. -/
def Pushes (x : Exec Nat) (ps : List Plain) : Prop :=
  ∀ w : World, Ends x (fun n w' ↦ n = ps.length ∧
    w' = { w with binding.machine := ps.foldl Machine.pushPlain w.binding.machine })
    (fun _ _ ↦ False) w

theorem pushes_nothing : Pushes (return 0) [] :=
  fun _ ↦ ⟨rfl, rfl⟩

/-- An operation that works out a change, makes it, and pushes its answer. -/
theorem WorksOut.obeys {x : Exec ListEdit} {ps : List Plain} {answer : ListAnswer}
    (hx : WorksOut shape.name x w xs ps answer) (h : w.Lists a xs) {rest : Exec Nat}
    (hrest : Pushes rest ps) :
    Obeys shape.name (do editList shape a (← x); rest) w a answer := by
  rw [Obeys, ends_bind]
  refine hx.imp (fun e w₁ h₁ ↦ ?_) fun i w₁ h₁ ↦ ?_
  · obtain ⟨rfl, he, hanswer⟩ := h₁
    rw [ends_bind, ends_editList h he]
    refine (hrest _).imp (fun n w₂ h₂ ↦ ?_) fun _ _ h ↦ h.elim
    obtain ⟨rfl, rfl⟩ := h₂
    refine ⟨ps, e.result xs, hanswer, rfl, rfl, ?_, fun b hb ↦ ?_⟩
    · simp [World.Lists, Memory.container?, Memory.write]
    · exact Dict.find?_insert_of_ne _ _ hb
  · obtain ⟨rfl, f, rfl, hanswer⟩ := h₁
    exact ⟨f, hanswer, rfl, rfl, rfl⟩

/-- A datum is pushed as a script sees it, or scripts have no value for it. -/
theorem ends_written (d : Datum) {Q : Nat → World → Prop} {E : Interrupt → World → Prop}
    (hQ : ∀ p, type.write d = .ok p →
      Q 1 { w with binding.machine := w.binding.machine.pushPlain p })
    (hE : ∀ n, type.write d = .error n → E (.failure (.unrepresentable n)) w) :
    Ends (pushScalar type d) Q E w := by
  rw [pushScalar]
  cases hd : type.write d with
  | ok p => exact hQ p hd
  | error n => exact hE n hd

/-- The last part of an operation: pushing an item. -/
theorem ends_pushScalar (d : Datum) {Q : Nat → World → Prop} {E : Interrupt → World → Prop}
    (hQ : ∀ p, ListOp.shown type d = .ok p →
      Q 1 { w with binding.machine := w.binding.machine.pushPlain p })
    (hE : ∀ f, ListOp.shown type d = .error f → E (.failure (f.report shape.name)) w) :
    Ends (pushScalar type d) Q E w := by
  rw [ListOp.shown] at hQ hE
  refine ends_written d (fun p hp ↦ hQ p (by rw [hp]; rfl)) fun n hn ↦ ?_
  exact hE (.unrepresentable n) (by rw [hn]; rfl)

theorem obeys_listIndex (h : w.Lists a xs) :
    Obeys shape.name (listIndex shape type a) w a (w.answer type xs .index) := by
  rw [Obeys, listIndex, ends_bind, World.answer, ListOp.apply]
  refine ends_slotArgument h (fun p hle hp hk ↦ ?_) fun f hf ↦ ⟨f, by rw [hf]; rfl, rfl, rfl, rfl⟩
  have hlt : p - 1 < xs.length := by omega
  have hget : xs.getD (p - 1) .absent = xs[p - 1] := by
    rw [List.getD_eq_getElem?_getD, List.getElem?_eq_getElem hlt, Option.getD_some]
  rw [hk, ends_bind, ends_listAt h, List.getElem?_eq_getElem hlt]
  simp only [ok_bind, hget]
  exact ends_pushScalar _
    (fun q hq ↦ ⟨[q], xs, by rw [hq, ok_bind]; rfl, rfl, answered_of_pushed h [q]⟩)
    fun f hf ↦ ⟨f, by rw [hf]; rfl, rfl, rfl, rfl⟩

theorem ends_containerAt {kind : ContainerKind}
    (hc : w.container? (w.binding.machine.valueAt 1) = some (kind, a)) {Q : Address → World → Prop}
    {E : Interrupt → World → Prop} : Ends (containerAt kind 1) Q E w ↔ Q a w := by
  rw [containerAt, ends_bind, ends_get, hc]
  simp only [if_pos, ends_pure]

theorem ends_containerArgument {kind : ContainerKind}
    (hc : w.container? (w.binding.machine.valueAt 1) = some (kind, a))
    {Q : ContainerKind × Address → World → Prop} {E : Interrupt → World → Prop} :
    Ends containerArgument Q E w ↔ Q (kind, a) w := by
  rw [containerArgument, ends_bind, ends_get]
  simp only [hc, ends_pure]

theorem obeys_listNext (hc : w.container? (w.binding.machine.valueAt 1) = some (.list shape type, a))
    (h : w.Lists a xs) :
    Obeys shape.name (listNext shape type) w a (w.answer type xs .next) := by
  rw [Obeys, listNext, ends_bind, ends_containerAt hc, ends_bind, World.answer, ListOp.apply]
  refine ends_position (fun i hi ↦ ?_) fun f hf ↦ ⟨f, by rw [hf]; rfl, rfl, rfl, rfl⟩
  rw [hi, ends_bind, ends_listAt h, ok_bind]
  cases (if 0 ≤ i.toInt then xs[i.toInt.toNat]? else none) with
  | some d =>
    dsimp only
    rw [ends_bind, ends_push, ends_bind]
    refine ends_pushScalar _ (fun q hq ↦ ⟨[.integer (i + 1), q], xs, by rw [hq]; rfl, rfl,
      answered_of_pushed h [.integer (i + 1), q]⟩) fun f hf ↦ ⟨f, by rw [hf]; rfl, rfl, rfl, rfl⟩
  | none => exact ⟨[.nil], xs, rfl, rfl, answered_of_pushed h [.nil]⟩

/-- **Every operation on a list container does what it would do to a plain list.** -/
theorem obeys_builtin (hc : w.container? (w.binding.machine.valueAt 1) = some (.list shape type, a))
    (h : w.Lists a xs) (op : ListOp) :
    Obeys shape.name (op.builtin (.list shape type)).run w a (w.answer type xs op) := by
  have hargument {f : ContainerKind × Address → Exec Nat} {answer}
      (hf : Obeys shape.name (f (.list shape type, a)) w a answer) :
      Obeys shape.name (containerArgument >>= f) w a answer := by
    rwa [Obeys, ends_bind, ends_containerArgument hc]
  -- All but a step of a walk look the container up by their first argument, whatever its kind.
  cases op with
  | index => exact hargument (obeys_listIndex h)
  | newIndex => exact hargument ((worksOut_newIndexEdit h).obeys h pushes_nothing)
  | insert => exact hargument ((worksOut_insertEdit h).obeys h fun _ ↦ ⟨rfl, rfl⟩)
  | remove => exact hargument ((worksOut_removeEdit h).obeys h pushes_nothing)
  | clear =>
    refine @hargument _ (w.answer type xs .clear) ⟨[], [], rfl, rfl, rfl, ?_, ?_⟩
    · simp [World.Lists, Memory.container?, Memory.write, ContainerKind.empty]
    · exact fun b hb ↦ Dict.find?_insert_of_ne _ _ hb
  | length =>
    refine hargument ?_
    rw [Obeys, ends_bind, ends_map, ends_listAt h]
    exact ⟨_, xs, rfl, rfl, answered_of_pushed h [.integer (Int64.ofNat xs.length)]⟩
  | next => exact obeys_listNext hc h

end Exec

/-! ### Runs -/

/-- What is left of a list after an answer. -/
def ListAnswer.left (xs : List Datum) : ListAnswer → List Datum
  | .ok (_, ys) => ys
  | .error _ => xs

/-- How an operation works out its change of the list at an address, if it changes one position. -/
def ListOp.edit? (shape : ListShape) (type : ScalarType) (a : Address) :
    ListOp → Option (Exec ListEdit)
  | newIndex => some (Exec.newIndexEdit shape type a)
  | insert => some (Exec.insertEdit shape type a)
  | remove => some (Exec.removeEdit shape a)
  | _ => none

/-- A call of an operation, and the world in which its function starts. -/
structure ListCall where
  op : ListOp
  world : World

namespace ListCall

/-- What a call comes to on containers of a kind. -/
def outcome (kind : ContainerKind) (c : ListCall) : Except Interrupt Nat × World :=
  (c.op.builtin kind).run.outcome c.world

/-- A call answers like a plain list: it pushes the answer, or it fails for the same reason and leaves
the host as it was. -/
def Answers (shape : ListShape) (type : ScalarType) (c : ListCall) :
    Except ListFailure (List Plain) → Prop
  | .ok ps =>
    (c.outcome (.list shape type)).1 = .ok ps.length ∧
      (c.outcome (.list shape type)).2.binding.machine =
        ps.foldl Machine.pushPlain c.world.binding.machine
  | .error f =>
    (c.outcome (.list shape type)).1 = .error (.failure (f.report shape.name)) ∧
      (c.outcome (.list shape type)).2.host = c.world.host

/-- The change that a call comes to is within the bounds that the list has then. -/
def InBounds (shape : ListShape) (type : ScalarType) (a : Address) (c : ListCall) : Prop :=
  ∃ xs, c.world.Lists a xs ∧ ∀ x, c.op.edit? shape type a = some x →
    Exec.Ends x (fun e w ↦ w = c.world ∧ e.InBounds xs.length) (fun _ _ ↦ True) c.world

/-- What a plain list answers to calls, and what is left of it. -/
def replay (type : ScalarType) :
    List Datum → List ListCall → List (Except ListFailure (List Plain)) × List Datum
  | xs, [] => ([], xs)
  | xs, c :: cs =>
    let answer := c.world.answer type xs c.op
    let (answers, ys) := replay type (answer.left xs) cs
    (answer.map Prod.fst :: answers, ys)

variable {shape : ListShape} {type : ScalarType} {a : Address} {xs : List Datum} {c : ListCall}

/-- A call does to the list of a container what it would do to a plain list. -/
theorem answers_answer
    (hc : c.world.container? (c.world.binding.machine.valueAt 1) = some (.list shape type, a))
    (h : c.world.Lists a xs) :
    c.Answers shape type ((c.world.answer type xs c.op).map Prod.fst) ∧
      (c.outcome (.list shape type)).2.Lists a ((c.world.answer type xs c.op).left xs) := by
  have hobeys := Exec.obeys_builtin hc h c.op
  rcases hout : c.outcome (.list shape type) with ⟨i | n, w'⟩
  · obtain ⟨f, hanswer, rfl, hrefused⟩ := hobeys.error hout
    rw [hanswer]
    refine ⟨⟨by rw [hout], by rw [hout]; exact hrefused.host⟩, ?_⟩
    rw [World.Lists, hrefused.host]
    exact h
  · obtain ⟨ps, ys, hanswer, rfl, hanswered⟩ := hobeys.ok hout
    rw [hanswer]
    exact ⟨⟨by rw [hout], by rw [hout]; exact hanswered.machine⟩, hanswered.lists⟩

theorem inBounds_of_lists (h : c.world.Lists a xs) : c.InBounds shape type a := by
  refine ⟨xs, h, fun x hx ↦ ?_⟩
  have hweak {ps : List Plain} {answer : ListAnswer}
      (hworks : Exec.WorksOut shape.name x c.world xs ps answer) :
      Exec.Ends x (fun e w ↦ w = c.world ∧ e.InBounds xs.length) (fun _ _ ↦ True) c.world :=
    Exec.Ends.imp hworks (fun _ _ he ↦ ⟨he.1, he.2.1⟩) fun _ _ _ ↦ trivial
  cases hop : c.op with
  | newIndex =>
    obtain rfl : Exec.newIndexEdit shape type a = x := by simpa [hop, ListOp.edit?] using hx
    exact hweak (Exec.worksOut_newIndexEdit h)
  | insert =>
    obtain rfl : Exec.insertEdit shape type a = x := by simpa [hop, ListOp.edit?] using hx
    exact hweak (Exec.worksOut_insertEdit h)
  | remove =>
    obtain rfl : Exec.removeEdit shape a = x := by simpa [hop, ListOp.edit?] using hx
    have hremove : Exec.WorksOut shape.name (Exec.removeEdit shape a) c.world xs []
        (c.world.answer type xs .remove) := Exec.worksOut_removeEdit h
    exact hweak hremove
  | index | clear | length | next => simp [hop, ListOp.edit?] at hx

end ListCall

/-- Calls on the container at an address, each of which finds there what the one before it left. Much
else may happen between them. -/
inductive ListCalls (kind : ContainerKind) (a : Address) :
    Option Container → List ListCall → Option Container → Prop
  | nil {x : Option Container} : ListCalls kind a x [] x
  | cons {x y : Option Container} {c : ListCall} {cs : List ListCall}
      (container : c.world.container? (c.world.binding.machine.valueAt 1) = some (kind, a))
      (found : c.world.host.memory.container? a = x)
      (rest : ListCalls kind a ((c.outcome kind).2.host.memory.container? a) cs y) :
      ListCalls kind a x (c :: cs) y

/-- **List containers of all shapes refine one list.** Whatever the operations and their arguments, the
calls on a container answer what a plain list answers, whose failures know of the shape by its name
only; the container holds what is left of the list; and no primitive is given a slot that is out of its
bounds. -/
theorem ListContainer.refines_list {shape : ListShape} {type : ScalarType} {a : Address}
    {xs : List Datum} {cs : List ListCall} {y : Option Container}
    (h : ListCalls (.list shape type) a (some (.list xs)) cs y) :
    cs.Forall₂ (ListCall.Answers shape type) (ListCall.replay type xs cs).1 ∧
      y = some (.list (ListCall.replay type xs cs).2) ∧ ∀ c ∈ cs, c.InBounds shape type a := by
  -- By induction on the calls: what one of them leaves of the list is what the next one finds.
  generalize hx : some (Container.list xs) = x at h
  induction h generalizing xs with
  | nil => exact ⟨.nil, hx.symm, fun c hc ↦ absurd hc (List.not_mem_nil)⟩
  | cons container found rest ih =>
    have hlists : World.Lists _ a xs := found.trans hx.symm
    obtain ⟨hanswers, hleft⟩ := ListCall.answers_answer container hlists
    obtain ⟨hanswersRest, hleftRest, hboundsRest⟩ := ih hleft.symm
    exact ⟨.cons hanswers hanswersRest, hleftRest,
      List.forall_mem_cons.2 ⟨ListCall.inBounds_of_lists hlists, hboundsRest⟩⟩

/-- On the stack are a linked list of the host with the items 10 and 20, a position, and an item. -/
def World.listing : World :=
  (Session.lobby.run [.act (.container (.pushOwned (.list .linked (.int .i64))
      (.list [.int 10, .int 20]))), .act (.stack (.push (.integer 2))),
    .act (.stack (.push (.integer 15)))]).world

/-- The address of the list. -/
def World.listingAddress : Address :=
  match World.listing.container? (World.listing.binding.machine.valueAt 1) with
  | some (_, a) => a
  | none => 0

/-- The item is inserted, then the position is read. -/
def ListCall.inserting : List ListCall :=
  let insertion : ListCall := ⟨.insert, World.listing⟩
  [insertion, ⟨.index, (insertion.outcome (.list .linked (.int .i64))).2⟩]

/-- What the insertion put at the position is read there. -/
theorem ListContainer.refines_list_inserting :
    ListCall.inserting.Forall₂ (ListCall.Answers .linked (.int .i64))
      [.ok [.boolean true], .ok [.integer 15]] := by
  let kind : ContainerKind := .list .linked (.int .i64)
  have hreplay : (ListCall.replay (.int .i64) [.int 10, .int 20] ListCall.inserting).1 =
      [.ok [.boolean true], .ok [.integer 15]] := by decide +kernel
  have hcalls : ListCalls kind World.listingAddress (some (.list [.int 10, .int 20]))
      ListCall.inserting _ :=
    .cons (by decide +kernel) (show World.listing.Lists _ _ by decide +kernel)
      (.cons (by decide +kernel) rfl .nil)
  rw [← hreplay]
  exact (ListContainer.refines_list hcalls).1

end ObjectBridge
