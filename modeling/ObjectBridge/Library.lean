import ObjectBridge.Finalizer
import ObjectBridge.Push
import ObjectBridge.Walk

/-!
# The script library

The bridge gives scripts a table of functions to ask what a value is, to cast an object, and to
change containers in ways that plain assignment cannot. Here are these functions, and the table of
all functions that the bridge itself provides.
-/

namespace ObjectBridge

namespace Exec

/-- The name of the type of argument 1. -/
def libraryType : Exec Nat := do
  let w ← get
  pushText (w.typeName (← valueAt 1))
  return 1

/-- Whether argument 1 is valid. -/
def libraryIsValid : Exec Nat := do
  let w ← get
  push (.boolean (w.isValid (← valueAt 1)))
  return 1

/-- Argument 1 seen as the type that argument 2 names. -/
def libraryCast : Exec Nat := do
  match (← machine).textAt? 2 with
  | none => fail (.typeMismatch 2 "string" (← valueAt 2).kindName)
  | some name =>
    match (← registry).find? name with
    | none => fail (.unknownType name)
    | some target =>
      cast 1 target
      return 1

/-- The metatable of the type that argument 1 names, nil when there is none. -/
def libraryTypeMetatable : Exec Nat := do
  let r ← registry
  let metatable ← match ((← machine).textAt? 1).bind r.find? with
    | some type => typeMetatable type
    | none => pure none
  push (match metatable with
    | some mt => .table mt
    | none => .nil)
  return 1

end Exec

/-- What a function of the bridge does; the number of its results. -/
def Builtin.run : Builtin → Exec Nat
  | objectIndex => Exec.objectIndex
  | objectNewIndex => Exec.objectNewIndex
  | finalize => Exec.finalize
  | describe => Exec.describe
  | containerIndex => Exec.containerIndex
  | containerNewIndex => Exec.containerNewIndex
  | containerLength => Exec.containerLength
  | containerPairs => Exec.containerPairs
  | typeName => Exec.libraryType
  | isValid => Exec.libraryIsValid
  | cast => Exec.libraryCast
  | insert => Exec.containerInsert
  | remove => Exec.containerRemove
  | clear => Exec.containerClear
  | typeMetatable => Exec.libraryTypeMetatable
  | advance kind => Exec.containerNext kind

end ObjectBridge
