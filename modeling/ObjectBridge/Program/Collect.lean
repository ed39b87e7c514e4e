import ObjectBridge.Finalizer
import ObjectBridge.Program.Operand

/-!
# Actions of the collector, and pins

The collector moves nothing, but what it removes leaves the references to it behind. The registers
of the host keep nothing alive, so those that refer to the heap are emptied first.
-/

namespace ObjectBridge

/-- Empty the registers that hold heap objects. -/
def Desk.releaseRegisters (d : Desk) : Desk :=
  { d with registers := d.registers.filter fun _ v ↦ v.ref?.isNone }

/-- The numbers of a tally. -/
def Tally.report (t : Tally) : Report :=
  .list [.count t.strings, .count t.tables, .count t.functions, .count t.userdata,
    .count t.finalized]

/-- What a destroyed object left behind, an integer as a plain number. -/
def Datum.farewell : Datum → Report
  | .int n => .count n
  | d => .datum d

/-- The number of cycles after which collecting everything is given up. -/
def maxRounds : Nat :=
  10000

namespace Exec

/-- Drop a handle to a pinned object. -/
def dropPin (h : PinHandle) : Exec Unit :=
  modifyPins h.owner (·.dropHandle h.index)

/-- Keep a handle under a name; the handle that had the name is dropped. -/
def keepPin (name : String) (h : PinHandle) : Exec Unit := do
  let old := (← desk).pins.find? name
  modifyDesk fun d ↦ { d with pins := d.pins.insert name h }
  if let some old := old then dropPin old

/-- The reference that a handle pins. -/
def pinReference (h : PinHandle) : Exec (Option Int) :=
  return ((← get).pins[h.owner]?.getD {}).reference? h.index

/-- Pin the value at an index; nil is not pinned. -/
def pinValue (idx : Int) : Exec (Option PinHandle) := do
  flushPins
  let v ← valueAt idx
  if v.isNil then return none
  let b ← binding
  let reference ← updateMachine (·.reference b.tables.pinned v)
  let handle : PinHandle := ⟨b.number, ((← get).pins[b.number]?.getD {}).nextIndex⟩
  modifyPins b.number (·.add reference)
  return some handle

/-- Push a pinned value, nil when it is pinned no more. -/
def pushPin (h : PinHandle) : Exec Unit := do
  let b ← binding
  match ← pinReference h with
  | some r => push (b.machine.rawGetPosition b.tables.pinned r)
  | none => push .nil

/-- Do something with the handle of a name; nothing is done when there is none. -/
def withPin (name : String) (body : PinHandle → Exec Report) : Exec Report := do
  match (← desk).pins.find? name with
  | some h => body h
  | none => return .nothing

end Exec

/-- Make the call of an action of the collector or of pins, and report its outcome. -/
def CollectAction.perform (run : Runner) : CollectAction → Exec Report
  | collect => do
    Exec.modifyDesk Desk.releaseRegisters
    let n ← Exec.collect run
    return .count n
  | collectAll => do
    Exec.modifyDesk Desk.releaseRegisters
    let n ← Exec.collectAll run maxRounds
    return .count n
  | statistics => return (← Exec.machine).tally.report
  | cacheLength => return .count (← Exec.binding).cache.size
  | farewells => do
    let noted ← Exec.updateHost fun h ↦ (h.farewells.reverse, { h with farewells := [] })
    return .list (noted.map Datum.farewell)
  | pin idx name => do
    match ← Exec.pinValue idx with
    | some h => do
      Exec.keepPin name h
      match ← Exec.pinReference h with
      | some r => return .count r
      | none => return .nothing
    | none => return .nothing
  | pushPin name => Exec.withPin name fun h ↦ do
    Exec.pushPin h
    Exec.shownTop
  | clonePin source target => Exec.withPin source fun h ↦ do
    Exec.modifyPins h.owner (·.addHandle h.index)
    Exec.keepPin target h
    return .nothing
  | dropPin name => Exec.withPin name fun h ↦ do
    Exec.modifyDesk fun d ↦ { d with pins := d.pins.erase name }
    Exec.dropPin h
    return .nothing
  | showPin name => Exec.withPin name fun h ↦ do
    return .text (h.text (← Exec.pinReference h))
  | sameSlot x y => Exec.withPin x fun h ↦ Exec.withPin y fun k ↦
    return .flag (h = k)
  | pinCount => do
    let w ← get
    return .count (w.pins[w.binding.number]?.getD {}).liveCount

end ObjectBridge
