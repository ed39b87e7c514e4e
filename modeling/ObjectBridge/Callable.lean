import ObjectBridge.Action
import ObjectBridge.Memory

/-!
# Callable functions

Every function of the heap runs one of these: a metamethod or library function of the bridge, a
routine, a method of a host type, or a program. Methods find the object they are called on in
their first argument; what a method computes from the object and its other arguments is a function
on the memory of the host.
-/

namespace ObjectBridge

/-- The functions that the bridge itself provides. -/
inductive Builtin where
  /-- Reading a member of an object. -/
  | objectIndex
  /-- Writing a member of an object. -/
  | objectNewIndex
  /-- Releasing what a userdata holds. -/
  | finalize
  /-- The text of an object or container. -/
  | describe
  | containerIndex
  | containerNewIndex
  | containerLength
  | containerPairs
  | typeName
  | isValid
  | cast
  | insert
  | remove
  | clear
  | typeMetatable
  /-- One step of a walk over a container of the kind. -/
  | advance (kind : ContainerKind)
  deriving DecidableEq, Inhabited

/-- The arguments of a method as it reads them, by position. -/
structure MethodArguments where
  integer? : Int → Option Int64
  text? : Int → Option String

/-- What a method does once it has its object. -/
inductive MethodBody where
  | routine (r : Routine)
  /-- Change the memory and give one result of the given type. -/
  | compute (result : ScalarType) (run : Memory → Address → MethodArguments → Memory × Datum)

/-- What runs when a function is called. -/
inductive Callable where
  | builtin (b : Builtin)
  | routine (r : Routine)
  /-- A method of the host type; its object is the first argument. -/
  | method (owner : TypeKey) (body : MethodBody)
  | program (body : List Action)

instance : Inhabited Callable := ⟨.routine .nothing⟩

/-- An exported member of a host type. -/
inductive Member where
  /-- A field: how to read it at the address of an object and, unless it is read only, how to write
  it. -/
  | variable (t : ScalarType) (get : Memory → Address → Datum)
      (set? : Option (Memory → Address → Datum → Memory))
  | function (c : Callable)

end ObjectBridge
