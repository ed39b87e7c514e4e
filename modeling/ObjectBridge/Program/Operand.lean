import ObjectBridge.Exhibit
import ObjectBridge.Global
import ObjectBridge.Resolve

/-!
# Operands and shown values

Here an action finds the values it works on, and its report the form in which values are shown. A
packed pointer is shown by its slot only, because addresses differ from run to run; a packed handle
is shown whole.
-/

namespace ObjectBridge

/-- A word as a report shows it. -/
def Registry.shownWord (r : Registry) (w : UInt64) : Shown :=
  let slot := LightWord.slot w
  if LightWord.tagged w && r.types.any fun d ↦ !d.isWeak && d.lightSlot = slot then
    .pointer slot (LightWord.payload w = 0)
  else .word w

/-- A value as a report shows it. -/
def World.shown (w : World) (v : Value) : Shown :=
  match v with
  | .nil => .nil
  | .boolean b => .boolean b
  | .integer i => .integer i
  | .number x => .number x
  | .string _ => .string (w.binding.machine.text? v)
  | .table _ => .table
  | .function _ => .function
  | .userdata _ => .userdata
  | .word word => w.binding.registry.shownWord word

/-- The first position, counted from 1, that holds the same object. -/
def firstPosition (frame : List Value) (v : Value) : Nat :=
  frame.findIdx (fun u ↦ u.same v) + 1

/-- A value of a frame, with its first position when it has an identity to tell apart. -/
def World.located (w : World) (frame : List Value) (v : Value) : Report :=
  match v with
  | .table _ | .function _ | .userdata _ | .word _ =>
    .located (w.shown v) (firstPosition frame v)
  | _ => .value (w.shown v)

namespace Exec

/-- The value of an operand. -/
def operand : Operand → Exec Value
  | .nil => return .nil
  | .boolean b => return .boolean b
  | .integer i => return .integer i
  | .number x => return .number x
  | .text s => intern s
  | .word w => return .word w
  | .slot idx => valueAt idx
  | .register name => return ((← desk).registers.find? name).getD .nil
  | .reference v => return v

/-- The values of operands, from left to right. -/
def operands (vs : List Operand) : Exec (List Value) :=
  vs.mapM operand

/-- The table that an operand is. -/
def tableOperand (v : Operand) : Exec (Option Nat) :=
  Value.table? <$> operand v

/-- An argument whose operand has been read. -/
def readyArgument : Argument → Exec ReadyArgument
  | .scalar t d => return .scalar t d
  | .value v => .value <$> operand v
  | .unit => return .unit

/-- Report a value. -/
def shown (v : Value) : Exec Report :=
  return .value ((← get).shown v)

/-- Report values in order. -/
def shownAll (vs : List Value) : Exec Report := do
  let w ← get
  return .list (vs.map fun v ↦ .value (w.shown v))

/-- Report the value on top of the stack. -/
def shownTop : Exec Report := do
  shown (← valueAt (-1))

/-- Report a value that has crossed to the host. -/
def shownCrossed : Crossed → Exec Report
  | .datum d => return .datum d
  | .value v => shown v

/-- Report a computation that has no outcome of its own. -/
def silently (body : Exec Unit) : Exec Report := do
  body
  return .nothing

/-- Report an integer that may be missing. -/
def shownInteger (i : Option Int64) : Report :=
  match i with
  | some i => .wide i.toInt
  | none => .nothing

/-- Report a text that may be missing. -/
def shownText (s : Option String) : Report :=
  match s with
  | some s => .text s
  | none => .nothing

/-- Report a count that may be missing. -/
def shownCount (n : Option Nat) : Report :=
  match n with
  | some n => .count n
  | none => .nothing

end Exec

end ObjectBridge
