import ObjectBridge.Global

/-!
# Binding a machine to a registry

A fresh machine is prepared in a fixed order: the tables of the bridge, a metatable for every
exported type, the metatables of containers and of packed words, and at last the script library,
whose global path has to exist. The functions of a type are put into its metatable bases first, so
that a function of the type itself takes the place of one it inherits.
-/

namespace ObjectBridge

namespace Exec

/-- Make a table. -/
def createTable : Exec Nat :=
  updateMachine Machine.createTable

/-- Put a function under its name into a table. -/
def setFunction (table : Nat) (name : String) (c : Callable) : Exec Unit := do
  let f ← updateMachine (·.createFunction c name)
  rawSetField table name f

/-- Put functions of the bridge under their names into a table. -/
def setBuiltins (table : Nat) (entries : List (String × Builtin)) : Exec Unit :=
  entries.forM fun entry ↦ setFunction table entry.1 (.builtin entry.2)

/-- Name a metatable. -/
def setName (metatable : Nat) (name : String) : Exec Unit := do
  let text ← intern name
  rawSetField metatable "__name" text

/-- Put a table into the registry of the machine. -/
def setRegistryTable (name : String) (table : Nat) : Exec Unit := do
  rawSetField (← machine).registry name (.table table)

/-- Make the tables that the bridge keeps in the machine. -/
def createBridgeTables : Exec BridgeTables := do
  let typeMetatables ← createTable
  setRegistryTable "bind.meta_list" typeMetatables
  let cache ← createTable
  let weakMode ← createTable
  let mode ← intern "v"
  rawSetField weakMode "__mode" mode
  let m ← machine
  let m ← ofExcept (m.setMetatable (.table cache) (some weakMode))
  modifyMachine fun _ ↦ m
  setRegistryTable "bind.cache" cache
  let pinned ← createTable
  setRegistryTable "bind.objs" pinned
  let containerMetatable ← createTable
  setRegistryTable "bind.collection_meta" containerMetatable
  let cursorMetatable ← createTable
  setRegistryTable "bind.aux_meta" cursorMetatable
  return ⟨typeMetatables, cache, pinned, containerMetatable, cursorMetatable⟩

/-- The functions that a type declares itself, by name. -/
def declaredFunctions (d : Descriptor) : List (String × Callable) :=
  d.members.toList.filterMap fun entry ↦
    match entry.2 with
    | .function c => some (entry.1, c)
    | .variable _ _ _ => none

/-- Make the metatable of a type. -/
def createTypeMetatable (typeMetatables : Nat) (d : Descriptor) : Exec Unit := do
  let metatable ← createTable
  setName metatable d.name
  setBuiltins metatable [("__index", .objectIndex), ("__newindex", .objectNewIndex),
    ("__gc", .finalize), ("__tostring", .describe)]
  let r ← registry
  let line := ((r.views d.id).filterMap fun v ↦ r.get? v.1).reverse
  (line.flatMap declaredFunctions).forM fun entry ↦ setFunction metatable entry.1 entry.2
  modifyMachine (·.rawSetPosition typeMetatables (d.id + 1) (.table metatable))

/-- Fill the metatables of containers and of the cursors of their walks. -/
def fillContainerMetatables (t : BridgeTables) : Exec Unit := do
  setName t.containerMetatable "collection"
  setBuiltins t.containerMetatable [("__index", .containerIndex),
    ("__newindex", .containerNewIndex), ("__len", .containerLength),
    ("__pairs", .containerPairs), ("__gc", .finalize), ("__tostring", .describe)]
  setName t.cursorMetatable "aux"

/-- Make the metatable of packed words. -/
def createLightMetatable : Exec Unit := do
  let metatable ← createTable
  setName metatable "lightuserdata"
  setBuiltins metatable [("__index", .objectIndex), ("__newindex", .objectNewIndex),
    ("__tostring", .describe)]
  setRegistryTable "bind.light_meta" metatable
  modifyMachine fun m ↦ { m with lightMetatable := some metatable }

/-- Make the script library and store it at its global path. -/
def createLibrary (run : Runner) (path : String) : Exec Unit := do
  let library ← createTable
  setBuiltins library [("Type", .typeName), ("IsValid", .isValid), ("Cast", .cast),
    ("Insert", .insert), ("Remove", .remove), ("Clear", .clear),
    ("GetTypeMeta", .typeMetatable)]
  push (.table library)
  setGlobal run path

/-- Prepare the machine of a binding. -/
def setup (run : Runner) : Exec Unit := do
  let tables ← createBridgeTables
  modify fun w ↦ { w with binding.tables := tables }
  let b ← binding
  b.registry.types.toList.forM (createTypeMetatable tables.typeMetatables)
  fillContainerMetatables tables
  if b.settings.lightUserdata then createLightMetatable
  createLibrary run b.settings.libraryName

end Exec

end ObjectBridge
