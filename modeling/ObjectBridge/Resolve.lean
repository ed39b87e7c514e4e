import ObjectBridge.Registry.LightWord
import ObjectBridge.World

/-!
# From values to objects

A value stands for an object of an exported type when it is a packed word or carries a record. The
object is live when its view can still be found; it is stale when the value once stood for an
object and no longer does. Everything else is foreign.

Loading an object as a type succeeds for a live object that is of the type or of one derived from
it. The name and the validity of a value are told by the same distinction, and for containers by
their records.
-/

namespace ObjectBridge

/-- A value as an object. -/
inductive Resolved where
  | live (v : View)
  /-- The object is gone; the type it is known by. -/
  | stale (type : Nat)
  | foreign
  deriving DecidableEq, Inhabited

namespace World

/-- The weak objects of the registry of the binding. -/
def weakTable (w : World) : WeakTable :=
  w.host.weakTable w.binding.domain

/-- The object of a record. -/
def resolveRecord (w : World) (r : Record) : Resolved :=
  match r.exposed, r.target with
  | .container _, _ => .foreign
  | .declared type, .pointer a => .live ⟨a, type⟩
  | .declared type, .weak h =>
    match w.host.resolveHandle? w.binding.registry w.binding.domain h type with
    | some a => .live ⟨a, type⟩
    | none => .stale type
  | .declared type, .discarded => .stale type

/-- The object of a packed word. -/
def resolveWord (w : World) (word : UInt64) : Resolved :=
  match w.binding.registry.resolveWord? w.weakTable word with
  | some v => .live v
  | none =>
    match w.binding.registry.staleType? w.weakTable word with
    | some type => .stale type
    | none => .foreign

/-- A value as an object. -/
def resolve (w : World) (v : Value) : Resolved :=
  match v with
  | .word word => if w.binding.settings.lightUserdata then w.resolveWord word else .foreign
  | .userdata id =>
    match w.binding.machine.record? id with
    | some r => w.resolveRecord r
    | none => .foreign
  | _ => .foreign

/-- The address at which the live object of a value is a `type`. -/
def loadAs? (w : World) (v : Value) (type : Nat) : Option Address :=
  match w.resolve v with
  | .live view => w.binding.registry.toSuper? view type
  | _ => none

/-- The container of a value: its kind and its address. -/
def container? (w : World) (v : Value) : Option (ContainerKind × Address) :=
  match v.userdata?.bind w.binding.machine.record? with
  | some r =>
    match r.exposed, r.target with
    | .container kind, .pointer a => some (kind, a)
    | _, _ => none
  | none => none

/-- The script visible type name of a value. -/
def typeName (w : World) (v : Value) : String :=
  match w.resolve v with
  | .live view => w.binding.registry.nameOf view.type
  | .stale _ => "nil"
  | .foreign =>
    match w.container? v with
    | some (kind, _) => kind.name
    | none => v.kindName

/-- A value is valid when it is neither nil nor an object that is gone. -/
def isValid (w : World) (v : Value) : Bool :=
  match w.resolve v with
  | .live _ => true
  | .stale _ => false
  | .foreign =>
    match v with
    | .nil => false
    | .userdata id =>
      match w.binding.machine.record? id with
      | some r => !r.discarded
      | none => true
    | _ => true

end World

namespace Exec

/-- A value as an object. -/
def resolve (v : Value) : Exec Resolved :=
  return (← get).resolve v

/-- The name of a type of the host. -/
def typeKeyName (t : TypeKey) : Exec String :=
  return (← host).catalogue.name t

/-- The failure of an argument that is not what was expected. -/
def mismatch {α : Type} (idx : Int) (expected : String) : Exec α := do
  let w ← get
  fail (.typeMismatch idx expected (w.typeName (w.binding.machine.valueAt idx)))

/-- The address of the object at an index, seen as a type of the host. -/
def loadPointer (idx : Int) (t : TypeKey) : Exec (Option Address) := do
  let w ← get
  return (w.binding.registry.idOf? t).bind (w.loadAs? (w.binding.machine.valueAt idx))

/-- Like `loadPointer`; nil is accepted, and anything else that is no such object is a failure. -/
def checkPointer (idx : Int) (t : TypeKey) : Exec (Option Address) := do
  if (← valueAt idx).isNil then return none
  match ← loadPointer idx t with
  | some a => return some a
  | none => mismatch idx (← typeKeyName t)

/-- The object of an argument, which must be of a type of the host. -/
def argumentPointer (idx : Int) (t : TypeKey) : Exec Address := do
  match ← loadPointer idx t with
  | some a => return a
  | none => mismatch idx (← typeKeyName t)

/-- The block of the shared object at an index, if its record is an owner of an object of exactly
the type and the sharing. -/
def loadShare (s : Sharing) (idx : Int) (t : TypeKey) : Exec Nat := do
  let w ← get
  let share? : Option Nat := do
    let id ← (w.binding.machine.valueAt idx).userdata?
    let r ← w.binding.machine.record? id
    if r.ownership ≠ .shared ∨ r.discarded then none
    match r.payload with
    | some (.share block) =>
      let b ← w.host.blocks[block]?
      if b.sharing = s ∧ b.type = t then some block else none
    | _ => none
  match share? with
  | some block => return block
  | none => mismatch idx (← typeKeyName t)

/-- The container of a value, which must be of a kind. -/
def containerOf (kind : ContainerKind) (v : Value) : Exec Address := do
  let w ← get
  match w.container? v with
  | some (k, a) =>
    if k = kind then return a
    fail (.typeMismatch 1 kind.name v.kindName)
  | none => fail (.typeMismatch 1 kind.name v.kindName)

/-- The container at an index, which must be of a kind. -/
def containerAt (kind : ContainerKind) (idx : Int) : Exec Address := do
  let w ← get
  match w.container? (w.binding.machine.valueAt idx) with
  | some (k, a) => if k = kind then return a else mismatch idx kind.name
  | none => mismatch idx kind.name

end Exec

end ObjectBridge
