import ObjectBridge.Program.Operand

/-!
# Actions on the stack
-/

namespace ObjectBridge

/-- Everything a value tells about itself. -/
def Value.description (v : Value) : Report :=
  .fields [
    ("kind", .kind v.kind),
    ("type", .text v.kindName),
    ("nil", .flag v.isNil),
    ("truthy", .flag v.truthy),
    ("bool", match v.boolean? with
      | some b => .flag b
      | none => .nothing),
    ("int", Exec.shownInteger v.integer?),
    ("num", match v.number? with
      | some x => .datum (.double x)
      | none => .nothing),
    ("isa", .list [.flag v.table?.isSome, .flag v.function?.isSome, .flag v.userdata?.isSome,
      .flag (v.kind = .lightUserdata)])]

/-- Make the call of an action on the stack and report its outcome. -/
def StackAction.perform (a : StackAction) : Exec Report := do
  let m ← Exec.machine
  match a with
  | push v => do
    let v ← Exec.operand v
    Exec.push v
    return .nothing
  | pop n => Exec.silently (Exec.modifyMachine (·.pop n))
  | popValue => do
    let v ← Exec.popValue
    Exec.shown v
  | setTop n => Exec.silently (Exec.setTop n)
  | remove idx => Exec.silently (Exec.modifyMachine (·.remove idx))
  | replace idx v => do
    let v ← Exec.operand v
    Exec.modifyMachine (·.replace idx v)
    return .nothing
  | absolute idx => return .count (m.absolute idx)
  | read idx => Exec.shown (m.valueAt idx)
  | dump => do
    let w ← get
    let frame := m.topValues m.top
    return .list (frame.map (w.located frame))
  | keep name v => do
    let v ← Exec.operand v
    Exec.modifyDesk fun d ↦ { d with registers := d.registers.insert name v }
    Exec.shown v
  | text idx => return Exec.shownText (m.textAt? idx)
  | integer idx => return Exec.shownInteger (m.valueAt idx).integer?
  | truth idx => return .flag (m.valueAt idx).truthy
  | rawEqual x y => return .flag ((m.valueAt x).rawEqual (m.valueAt y))
  | typeName idx => return .text ((← get).typeName (m.valueAt idx))
  | isValid idx => return .flag ((← get).isValid (m.valueAt idx))
  | describe v => do
    let v ← Exec.operand v
    return v.description
  | compare x y => do
    let x ← Exec.operand x
    let y ← Exec.operand y
    return .list [.flag (x.rawEqual y), .flag (y.rawEqual x), .flag (x.same y)]

end ObjectBridge
