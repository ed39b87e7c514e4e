import ObjectBridge.Access

/-!
# Globals

A global path is a text in which points separate the names to follow, from the table of globals
on. Every text is a path, and a path has at least one name, which may be empty. Reading a path goes
through metatables and stops at the first nil; making one does not, and wants tables all the way.
-/

namespace ObjectBridge

/-- The names of a path, the first one collected in `name` back to front. -/
def pathNames : List Char → List Char → List String
  | name, [] => [String.ofList name.reverse]
  | name, c :: rest =>
    if c = '.' then String.ofList name.reverse :: pathNames [] rest
    else pathNames (c :: name) rest

/-- The names of a path. -/
def globalNames (path : String) : List String :=
  pathNames [] path.toList

/-- The path above the last name, if there is one, and the last name. -/
def splitGlobal (path : String) : Option String × String :=
  let names := globalNames path
  match names.dropLast with
  | [] => (none, path)
  | above => (some (".".intercalate above), names.getLastD "")

namespace Exec

/-- Follow names from a value on, up to the first nil. -/
def followNames (run : Runner) : List String → Value → Exec Value
  | [], v => return v
  | name :: rest, v => do
    if v.isNil then return v
    let k ← intern name
    followNames run rest (← index run v k)

/-- Push the value at a global path, nil when a step of it is missing. -/
def loadGlobal (run : Runner) (path : String) : Exec Unit := do
  let globals := (← machine).globals
  push (← followNames run (globalNames path) (.table globals))

/-- Take a value off the stack and store it at a global path, whose tables must be there. -/
def setGlobal (run : Runner) (path : String) : Exec Unit := do
  let v ← popValue
  let (above, name) := splitGlobal path
  let globals := (← machine).globals
  let parent ← match above with
    | some above => loadGlobal run above *> popValue
    | none => pure (.table globals)
  if parent.isNil then fail (.missingGlobal path)
  let k ← intern name
  newIndex run parent k v

/-- Follow names from a table on, making the tables that are missing. -/
def makeNames : List String → Nat → Exec Nat
  | [], table => return table
  | name :: rest, table => do
    match (← machine).heap.rawGetField table name with
    | .table id => makeNames rest id
    | .nil =>
      let id ← updateMachine Machine.createTable
      rawSetField table name (.table id)
      makeNames rest id
    | v => fail (.globalIsNoTable name v.kind)

/-- Make the tables of a global path, and push the last one. -/
def makeGlobal (path : String) : Exec Unit := do
  let globals := (← machine).globals
  push (.table (← makeNames (globalNames path) globals))

/-! ### Typed calls -/

/-- An argument whose operand has been read. -/
inductive ReadyArgument where
  | scalar (t : ScalarType) (d : Datum)
  | value (v : Value)
  | unit

/-- A value that has crossed to the host: a scalar, or the script value itself. -/
inductive Crossed where
  | datum (d : Datum)
  | value (v : Value)

/-- Push an argument; the number of values pushed. -/
def pushArgument : ReadyArgument → Exec Nat
  | .scalar t d => pushScalar t d
  | .value v => do
    push v
    return 1
  | .unit => return 0

/-- Push arguments in order; the number of values pushed. -/
def pushArguments : List ReadyArgument → Exec Nat
  | [] => return 0
  | a :: rest => do
    let n ← pushArgument a
    return n + (← pushArguments rest)

/-- Read a script value as a type. -/
def crossing (m : Machine) (t : CrossingType) (v : Value) : Except Mismatch Crossed :=
  match t with
  | .scalar t => (t.read m.heap.strings.text? v).map .datum
  | .value => .ok (.value v)

/-- Read the values from `first` on as results of the given types, counting them from `position`. -/
def readResults (first : Int) : Nat → List CrossingType → Exec (List Crossed)
  | _, [] => return []
  | position, t :: rest => do
    let m ← machine
    match crossing m t (m.valueAt (first + position)) with
    | .ok c => return c :: (← readResults first (position + 1) rest)
    | .error e => fail (.badResult (position + 1) e)

/-- Call a function, protected, with typed arguments and results. -/
def callWith (run : Runner) (f : Value) (args : List ReadyArgument)
    (results : List CrossingType) : Exec (List Crossed) :=
  guarded do
    push f
    let first ← top
    let nargs ← pushArguments args
    let _ ← tryCall run nargs (some results.length)
    readResults first 0 results

/-- `callWith` on the value at a global path. -/
def callGlobal (run : Runner) (path : String) (args : List ReadyArgument)
    (results : List CrossingType) : Exec (List Crossed) :=
  guarded do
    loadGlobal run path
    let f ← popValue
    callWith run f args results

/-- Read the value at a global path as a type. -/
def getGlobal (run : Runner) (path : String) (t : CrossingType) : Exec Crossed :=
  guarded do
    loadGlobal run path
    let m ← machine
    match crossing m t (m.valueAt (-1)) with
    | .ok c => return c
    | .error e => fail (.badGlobal path e)

end Exec

end ObjectBridge
