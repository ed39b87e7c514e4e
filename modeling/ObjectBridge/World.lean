import ObjectBridge.Host
import ObjectBridge.IdentityCache
import ObjectBridge.Machine
import ObjectBridge.Pins
import ObjectBridge.Report

/-!
# The world of a call

A binding is a machine together with what ties it to a registry: the registry itself, the settings,
the tables that the bridge keeps in the machine, and the identity cache. The world is the binding
that is being called, and everything around it that a call can change: the host, the pins of all
bindings, and the desk on which the programs of the host keep their names and write their reports.

`Exec` is a computation in the world. It may be interrupted, and it keeps every change it made up
to then. The interruptions are a failure, which a protected call turns into a result; a panic, which
unwinds the host functions it passes and is caught only by a protected call; and the exhaustion of
the fuel that bounds a run, which nothing catches.
-/

namespace ObjectBridge

/-- What a binding can be told about. -/
structure Settings where
  /-- The global path of the library of the bridge. -/
  libraryName : String := "bind"
  /-- Objects are packed into words where that is possible. -/
  lightUserdata : Bool := true
  /-- The step in which the cache of weak objects grows. -/
  cacheIncrement : Nat := 4096
  /-- The number of frames that can be active. -/
  maxDepth : Nat := 200
  deriving DecidableEq, Inhabited

/-- The tables that the bridge keeps in a machine. -/
structure BridgeTables where
  /-- The metatables of the types, by the number of the type plus one. -/
  typeMetatables : Nat
  /-- The weak valued table of the identity cache. -/
  cache : Nat
  /-- The pinned objects. -/
  pinned : Nat
  containerMetatable : Nat
  cursorMetatable : Nat
  deriving DecidableEq, Inhabited

/-- A machine tied to a registry. -/
structure Binding where
  machine : Machine := .initial
  registry : Registry := {}
  /-- The number of the registry among the tables of weak objects. -/
  domain : Nat := 0
  /-- The number of the binding among the tables of pins. -/
  number : Nat := 0
  settings : Settings := {}
  tables : BridgeTables := default
  cache : IdentityCache := {}

instance : Inhabited Binding := ⟨{}⟩

/-- What the programs of the host keep at hand. -/
structure Desk where
  registers : Dict String Value := .empty
  /-- Objects by name: the type they were made as, and their address. -/
  objects : Dict String (TypeKey × Address) := .empty
  /-- Shares in objects with several owners, by name. -/
  shares : Dict String Nat := .empty
  containers : Dict String (ContainerKind × Address) := .empty
  pins : Dict String PinHandle := .empty
  /-- The number of programs that run as functions. -/
  depth : Nat := 0
  /-- The reports, the latest first. -/
  reports : List Entry := []

instance : Inhabited Desk := ⟨{}⟩

/-- The binding that is called, and all that a call can change around it. -/
structure World where
  host : Host := {}
  pins : Array PinTable := #[]
  binding : Binding := {}
  desk : Desk := {}

instance : Inhabited World := ⟨{}⟩

/-- What ends a computation early. -/
inductive Interrupt where
  | failure (f : Failure)
  /-- A panic of the host; its payload may be a text. -/
  | panic (text : Option String)
  | exhausted
  deriving DecidableEq, Inhabited

/-- The most bytes that one array can take. -/
def maxArrayBytes : Nat :=
  0x7fffffffffffffff

/-- The bytes of a value on the stack. -/
def stackValueBytes : Nat :=
  16

/-- The bytes of a slot for weak objects in the identity cache. -/
def weakSlotBytes : Nat :=
  24

/-- A computation in the world. -/
abbrev Exec := ExceptT Interrupt (StateM World)

/-- What runs when a callable is called: the computation that yields the number of its results. -/
abbrev Runner := Callable → Exec Nat

namespace Exec

/-- End with a failure. -/
def fail {α : Type} (f : Failure) : Exec α :=
  throw (.failure f)

/-- End with a panic. -/
def panic {α : Type} (text : Option String) : Exec α :=
  throw (.panic text)

/-- Ask for an array of `count` items of `bytes` bytes each. It is a panic if no array can take
that many. -/
def reserve (count bytes : Nat) : Exec Unit :=
  if count * bytes ≤ maxArrayBytes then return else panic (some "capacity overflow")

/-- The value of an `Except`, or its failure. -/
def ofExcept {α : Type} : Except Failure α → Exec α
  | .ok a => pure a
  | .error f => fail f

/-- The binding that is called. -/
def binding : Exec Binding :=
  return (← get).binding

/-- The machine of the binding. -/
def machine : Exec Machine :=
  return (← get).binding.machine

/-- The registry of the binding. -/
def registry : Exec Registry :=
  return (← get).binding.registry

/-- The host. -/
def host : Exec Host :=
  return (← get).host

/-- The weak objects of the registry of the binding. -/
def weakTable : Exec WeakTable := do
  let w ← get
  return w.host.weakTable w.binding.domain

/-- The programs' desk. -/
def desk : Exec Desk :=
  return (← get).desk

/-- Change the machine. -/
def modifyMachine (f : Machine → Machine) : Exec Unit :=
  modify fun w ↦ { w with binding.machine := f w.binding.machine }

/-- Change the machine and tell something about it. -/
def updateMachine {α : Type} (f : Machine → α × Machine) : Exec α :=
  modifyGet fun w ↦
    let (a, m) := f w.binding.machine
    (a, { w with binding.machine := m })

/-- Change the identity cache. -/
def modifyCache (f : IdentityCache → IdentityCache) : Exec Unit :=
  modify fun w ↦ { w with binding.cache := f w.binding.cache }

/-- Change the host. -/
def modifyHost (f : Host → Host) : Exec Unit :=
  modify fun w ↦ { w with host := f w.host }

/-- Change the host and tell something about it. -/
def updateHost {α : Type} (f : Host → α × Host) : Exec α :=
  modifyGet fun w ↦
    let (a, h) := f w.host
    (a, { w with host := h })

/-- Change the desk. -/
def modifyDesk (f : Desk → Desk) : Exec Unit :=
  modify fun w ↦ { w with desk := f w.desk }

/-- Change the pins of a binding. -/
def modifyPins (owner : Nat) (f : PinTable → PinTable) : Exec Unit :=
  modify fun w ↦ { w with pins := w.pins.modify owner f }

/-! ### Values on the stack -/

/-- The number of values in the current frame. -/
def top : Exec Nat :=
  return (← machine).top

/-- The value at an index of the current frame. -/
def valueAt (idx : Int) : Exec Value :=
  return (← machine).valueAt idx

/-- Cut the stack, or fill it up with nil, to a size. -/
def resizeStack (size : Nat) : Exec Unit := do
  reserve size stackValueBytes
  modifyMachine (·.resize size)

/-- Give the current frame `n` values. -/
def setTop (n : Nat) : Exec Unit := do
  resizeStack ((← machine).base + n)

/-- Push a value. -/
def push (v : Value) : Exec Unit :=
  modifyMachine (·.push v)

/-- Take the top value off the current frame. -/
def popValue : Exec Value :=
  updateMachine Machine.popValue

/-- The string of a text. -/
def intern (s : String) : Exec Value :=
  updateMachine (·.intern s)

/-- Push a text. -/
def pushText (s : String) : Exec Unit :=
  modifyMachine (·.pushPlain (.text s))

/-- Push a scalar; the number of values pushed, which is 1. -/
def pushScalar (t : ScalarType) (d : Datum) : Exec Nat :=
  match t.write d with
  | .ok p => do
    modifyMachine (·.pushPlain p)
    return 1
  | .error n => fail (.unrepresentable n)

/-- Store a value in a table without metamethods. -/
def rawSet (table : Nat) (k v : Value) : Exec Unit := do
  let m ← machine
  let m ← ofExcept (m.rawSet table k v)
  modifyMachine fun _ ↦ m

/-- Store a value under a text in a table without metamethods. -/
def rawSetField (table : Nat) (name : String) (v : Value) : Exec Unit := do
  rawSet table (← intern name) v

/-- Run a computation, and whatever becomes of it, give the frame that is then current the number
of values that the frame has now. -/
def guarded {α : Type} (body : Exec α) : Exec α := fun w ↦
  let saved := w.binding.machine.top
  let (outcome, w) := (body.run w).run
  (outcome, { w with binding.machine := w.binding.machine.setTop saved })

end Exec

end ObjectBridge
