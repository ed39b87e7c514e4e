import ObjectBridge.Resolve

/-!
# Members of objects

A script reads and writes the members of an exported object by name. Functions are kept in the
metatable of a type together with those of its bases, and are found there first; a variable belongs
to the nearest base that declares it, and is read and written at the address of that base. A member
of an object that is gone is a failure and not nil, so that a script notices.
-/

namespace ObjectBridge

/-- The text of an address. -/
def Address.text (a : Address) : String :=
  "0x" ++ String.ofList (Nat.toDigits 16 a.toNat)

namespace Exec

/-- The metatable of a type. -/
def typeMetatable (type : Nat) : Exec (Option Nat) := do
  let b ← binding
  return (b.machine.rawGetPosition b.tables.typeMetatables (type + 1)).table?

/-- The object of argument 1: its type, and its view while it is live. -/
def objectArgument : Exec (Nat × Option View) := do
  let obj ← valueAt 1
  match ← resolve obj with
  | .live view => return (view.type, some view)
  | .stale type => return (type, none)
  | .foreign => fail (.badOperand .index obj.kindName)

/-- The function that a type and its bases provide under a key. -/
def memberFunction? (type : Nat) (key : Value) : Exec (Option Value) := do
  let h := (← machine).heap
  match (← typeMetatable type).map fun mt ↦ h.rawGet mt key with
  | some (.function f) => return some (.function f)
  | _ => return none

/-- The address of the base `owner` of an object, on which a member is declared. -/
def ownerAddress (v : View) (owner : Nat) : Exec Address := do
  let r ← registry
  match r.toSuper? v owner with
  | some a => return a
  | none => fail (.invalidCast (r.nameOf v.type) (r.nameOf owner))

/-- Read a member. Names that mean nothing, and keys that are no names, read as nil. -/
def objectIndex : Exec Nat := do
  let (type, view?) ← objectArgument
  let r ← registry
  match (← machine).textAt? 2, view? with
  | none, _ =>
    push .nil
    return 1
  | some name, none => fail (.nilObject (r.nameOf type) name)
  | some name, some view =>
    match ← memberFunction? type (← valueAt 2) with
    | some f =>
      push f
      return 1
    | none =>
      match r.findMember? type name with
      | some (owner, .variable t get _) =>
        let a ← ownerAddress view owner
        pushScalar t (get (← host).memory a)
      | _ =>
        push .nil
        return 1

/-- The value of an argument converted to a scalar type, for a variable. -/
def fieldArgument (idx : Int) (t : ScalarType) : Exec Datum := do
  let m ← machine
  match t.read m.heap.strings.text? (m.valueAt idx) with
  | .ok d => return d
  | .error e => fail (.conversion e)

/-- Write a variable. -/
def objectNewIndex : Exec Nat := do
  let (type, view?) ← objectArgument
  let r ← registry
  let name := ((← machine).textAt? 2).getD "?"
  match view? with
  | none => fail (.nilObject (r.nameOf type) name)
  | some view =>
    match r.findMember? type name with
    | some (owner, .variable t _ (some set)) =>
      let a ← ownerAddress view owner
      let d ← fieldArgument 3 t
      modifyHost fun h ↦ { h with memory := set h.memory a d }
      return 0
    | some (_, .variable _ _ none) => fail (.readOnly (r.nameOf type) name)
    | _ => fail (.unknownMember (r.nameOf type) name)

/-- Push the text of argument 1: the name of its type and its address, or nil in place of an
address that is not to be had. -/
def describe : Exec Nat := do
  let w ← get
  let obj ← valueAt 1
  let text := match w.resolve obj with
    | .live view => w.binding.registry.nameOf view.type ++ ": " ++ view.address.text
    | .stale type => w.binding.registry.nameOf type ++ ": nil"
    | .foreign =>
      match w.container? obj with
      | some (kind, a) => kind.name ++ ": " ++ a.text
      | none => w.typeName obj ++ ": nil"
  pushText text
  return 1

end Exec

end ObjectBridge
