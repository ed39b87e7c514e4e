import ObjectBridge.Resolve

/-!
# Containers for scripts

A script reads, writes and walks a container of the host through the same few operations whatever
its kind. Positions of a list count from 1; writing the position behind the last one appends, and
any other position outside the list is a failure. A map is indexed by its keys; writing nil erases.
Arguments are converted before the container is touched, so an operation that fails changes
nothing.

A walk over a list steps by position. A walk over a map takes the keys down when it begins: a key
that is erased before its turn is passed over, and a key that is added later is not visited.
-/

namespace ObjectBridge

/-- The failure of a position outside a list of the given length. -/
def outOfRange (shape : ListShape) (index : Int64) (length : Nat) : Failure :=
  .outOfRange shape.name index.toInt length

/-- The slot, counted from 0, of a position between 1 and `limit`. -/
def slotIn (shape : ListShape) (index : Int64) (limit length : Nat) : Except Failure Nat :=
  if 1 ≤ index.toInt ∧ index.toInt ≤ limit then .ok (index.toInt.toNat - 1)
  else .error (outOfRange shape index length)

namespace Exec

/-- A position argument. -/
def position (idx : Int) : Exec Int64 := do
  let v ← valueAt idx
  match v.integer? with
  | some i => return i
  | none => fail (.typeMismatch idx "integer" v.kindName)

/-- An argument converted to a scalar type, for a container. -/
def element (idx : Int) (t : ScalarType) (container : String) (role : ElementRole) :
    Exec Datum := do
  let m ← machine
  match t.read m.heap.strings.text? (m.valueAt idx) with
  | .ok d => return d
  | .error e => fail (.badElement role container e)

/-- The items of the list at an address. -/
def listAt (a : Address) : Exec (List Datum) := do
  match (← host).memory.container? a with
  | some (.list items) => return items
  | _ => return []

/-- The bindings of the map at an address. -/
def mapAt (a : Address) : Exec (Dict Datum Datum) := do
  match (← host).memory.container? a with
  | some (.map bindings) => return bindings
  | _ => return .empty

/-- Replace the container at an address. -/
def writeContainer (a : Address) (c : Container) : Exec Unit :=
  modifyHost fun h ↦ { h with memory := h.memory.write a (.container c) }

/-! ### Lists -/

/-- The slot of a position argument, which may be up to `room` behind the last item. -/
def slotArgument (shape : ListShape) (a : Address) (room : Nat) : Exec Nat := do
  let index ← position 2
  let length := (← listAt a).length
  ofExcept (slotIn shape index (length + room) length)

/-- Read a position. -/
def listIndex (shape : ListShape) (item : ScalarType) (a : Address) : Exec Nat := do
  let slot ← slotArgument shape a 0
  match (← listAt a)[slot]? with
  | some d => pushScalar item d
  | none =>
    push .nil
    return 1

/-- Change a list by a primitive of its shape; a slot outside the bounds of the primitive is a
panic. -/
def editList (shape : ListShape) (a : Address) (e : ListEdit) : Exec Unit := do
  match shape.edit? e (← listAt a) with
  | some items => writeContainer a (.list items)
  | none => panic (some "index out of bounds")

/-- The change that writes a position, or appends. -/
def newIndexEdit (shape : ListShape) (item : ScalarType) (a : Address) : Exec ListEdit := do
  let slot ← slotArgument shape a 1
  let d ← element 3 item shape.name .value
  return if slot = (← listAt a).length then .insert slot d else .set slot d

/-- Write a position, or append. -/
def listNewIndex (shape : ListShape) (item : ScalarType) (a : Address) : Exec Nat := do
  editList shape a (← newIndexEdit shape item a)
  return 0

/-- The change that inserts at a position. -/
def insertEdit (shape : ListShape) (item : ScalarType) (a : Address) : Exec ListEdit := do
  let slot ← slotArgument shape a 1
  let d ← element 3 item shape.name .value
  return .insert slot d

/-- Insert at a position; the items from there on move up. -/
def listInsert (shape : ListShape) (item : ScalarType) (a : Address) : Exec Nat := do
  editList shape a (← insertEdit shape item a)
  push (.boolean true)
  return 1

/-- The change that removes a position. -/
def removeEdit (shape : ListShape) (a : Address) : Exec ListEdit := do
  let slot ← slotArgument shape a 0
  return .remove slot

/-- Remove a position; the items behind it move down. -/
def listRemove (shape : ListShape) (a : Address) : Exec Nat := do
  editList shape a (← removeEdit shape a)
  return 0

/-- One step of a walk: the next position and its item, or nil at the end. -/
def listNext (shape : ListShape) (item : ScalarType) : Exec Nat := do
  let a ← containerAt (.list shape item) 1
  let index ← position 2
  let items ← listAt a
  match if 0 ≤ index.toInt then items[index.toInt.toNat]? else none with
  | some d =>
    push (.integer (index + 1))
    let _ ← pushScalar item d
    return 2
  | none =>
    push .nil
    return 1

/-! ### Maps -/

/-- Read a key. -/
def mapIndex (shape : MapShape) (key value : ScalarType) (a : Address) : Exec Nat := do
  let k ← element 2 key shape.name .key
  match (← mapAt a).find? k with
  | some d => pushScalar value d
  | none =>
    push .nil
    return 1

/-- Write a key, or erase it. -/
def mapNewIndex (shape : MapShape) (key value : ScalarType) (a : Address) : Exec Nat := do
  let k ← element 2 key shape.name .key
  if (← valueAt 3).isNil then
    writeContainer a (.map ((← mapAt a).erase k))
    return 0
  let d ← element 3 value shape.name .value
  writeContainer a (.map ((← mapAt a).insert k d))
  return 0

/-- Insert under a key that is absent, and tell whether it was. -/
def mapInsert (shape : MapShape) (key value : ScalarType) (a : Address) : Exec Nat := do
  let k ← element 2 key shape.name .key
  let d ← element 3 value shape.name .value
  let bindings ← mapAt a
  let absent := !bindings.contains k
  if absent then writeContainer a (.map (bindings.insert k d))
  push (.boolean absent)
  return 1

/-- Remove a key. -/
def mapRemove (shape : MapShape) (key : ScalarType) (a : Address) : Exec Nat := do
  let k ← element 2 key shape.name .key
  writeContainer a (.map ((← mapAt a).erase k))
  return 0

/-- The first key from `position` on that a map still has, with its value and the position behind
it. -/
def nextBinding (m : Dict Datum Datum) : List Datum → Nat → Option (Datum × Datum) × Nat
  | [], position => (none, position)
  | k :: rest, position =>
    match m.find? k with
    | some d => (some (k, d), position + 1)
    | none => nextBinding m rest (position + 1)

/-- The value that a userdata keeps alive. -/
def userValue (v : Value) : Exec Value := do
  let m ← machine
  match v.userdata?.bind m.heap.userdata.get? with
  | some u => return u.userValue
  | none => return .nil

/-- The cursor of a walk over keys of a type. -/
def cursor? (v : Value) (key : ScalarType) : Exec (Option (Nat × Cursor)) := do
  let m ← machine
  match v.userdata? with
  | some id =>
    match (m.heap.userdata.get? id).map Userdata.content with
    | some (.cursor c) => return if c.keyType = key then some (id, c) else none
    | _ => return none
  | none => return none

/-- One step of a walk: the next key and its value, or nil at the end. -/
def mapNext (shape : MapShape) (key value : ScalarType) : Exec Nat := do
  let v ← valueAt 1
  let a ← containerOf (.map shape key value) (← userValue v)
  match ← cursor? v key with
  | none => fail (.invalidIterator shape.name)
  | some (id, c) =>
    let (found, position) := nextBinding (← mapAt a) (c.keys.drop c.position) c.position
    modifyMachine fun m ↦ { m with heap := m.heap.modifyUserdata id fun u ↦
      { u with content := .cursor { c with position := position } } }
    match found with
    | some (k, d) =>
      let _ ← pushScalar key k
      let _ ← pushScalar value d
      return 2
    | none =>
      push .nil
      return 1

/-! ### Any kind -/

/-- The container of argument 1, for a call that names a member in argument 2. -/
def containerArgument : Exec (ContainerKind × Address) := do
  let w ← get
  let m := w.binding.machine
  match w.container? (m.valueAt 1) with
  | some c => return c
  | none => fail (.nilObject (w.typeName (m.valueAt 1)) ((m.textAt? 2).getD "?"))

/-- Read a member of a container. -/
def containerIndex : Exec Nat := do
  match ← containerArgument with
  | (.list shape item, a) => listIndex shape item a
  | (.map shape key value, a) => mapIndex shape key value a

/-- Write a member of a container. -/
def containerNewIndex : Exec Nat := do
  match ← containerArgument with
  | (.list shape item, a) => listNewIndex shape item a
  | (.map shape key value, a) => mapNewIndex shape key value a

/-- Insert into a container. -/
def containerInsert : Exec Nat := do
  match ← containerArgument with
  | (.list shape item, a) => listInsert shape item a
  | (.map shape key value, a) => mapInsert shape key value a

/-- Remove from a container. -/
def containerRemove : Exec Nat := do
  match ← containerArgument with
  | (.list shape _, a) => listRemove shape a
  | (.map shape key _, a) => mapRemove shape key a

/-- Remove everything from a container. -/
def containerClear : Exec Nat := do
  let (kind, a) ← containerArgument
  writeContainer a kind.empty
  return 0

/-- The length of a container. -/
def containerLength : Exec Nat := do
  let length ← match ← containerArgument with
    | (.list _ _, a) => List.length <$> listAt a
    | (.map _ _ _, a) => Dict.size <$> mapAt a
  push (.integer (Int64.ofNat length))
  return 1

/-- Begin a walk: the function that takes a step, its state, and the first key. -/
def containerPairs : Exec Nat := do
  let (kind, a) ← containerArgument
  let self ← valueAt 1
  let next ← updateMachine (·.createFunction (.builtin (.advance kind)) "next")
  push next
  match kind with
  | .list _ _ =>
    push self
    push (.integer 0)
  | .map shape key _ =>
    let keys := shape.keys (← mapAt a)
    let cursor := (← binding).tables.cursorMetatable
    let id ← updateMachine (·.createUserdata
      { content := .cursor ⟨key, keys, 0⟩, metatable := some cursor, userValue := self })
    push (.userdata id)
    push .nil
  return 3

/-- One step of a walk over a container of a kind. -/
def containerNext : ContainerKind → Exec Nat
  | .list shape item => listNext shape item
  | .map shape key value => mapNext shape key value

end Exec

end ObjectBridge
