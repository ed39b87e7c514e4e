import ObjectBridge.Failure
import ObjectBridge.Heap.Collect

/-!
# The machine

A machine is a heap, a stack of values and a list of frames. A frame is the stack position of its
first value; a function sees only the values from there up, and counts them from 1, or from the top
with negative numbers. Two tables of the heap are roots: the registry, in which the bridge keeps
its own tables, and the globals. All packed words share one metatable.
-/

namespace ObjectBridge

/-- A machine. -/
structure Machine where
  heap : Heap
  stack : Array Value := #[]
  /-- The positions at which the frames begin, the innermost frame first. -/
  frames : List Nat := []
  registry : Nat
  globals : Nat
  lightMetatable : Option Nat := none
  /-- What the collector has removed so far. -/
  tally : Tally := {}

namespace Machine

/-- A machine with an empty stack and the two root tables. -/
def initial : Machine :=
  let (registry, heap) := ({} : Heap).addTable {}
  let (globals, heap) := heap.addTable {}
  { heap := heap, registry := registry, globals := globals }

instance : Inhabited Machine := ⟨initial⟩

/-! ### The stack -/

/-- The position at which the current frame begins. -/
def base (m : Machine) : Nat :=
  m.frames.headD 0

/-- The number of values in the current frame. -/
def top (m : Machine) : Nat :=
  m.stack.size - m.base

/-- Cut the stack, or fill it up with nil, to a size. -/
def resize (m : Machine) (size : Nat) : Machine :=
  { m with stack :=
      if size ≤ m.stack.size then m.stack.take size
      else m.stack ++ Array.replicate (size - m.stack.size) Value.nil }

/-- Cut the stack to a size, if it is longer. -/
def truncate (m : Machine) (size : Nat) : Machine :=
  { m with stack := m.stack.take size }

/-- Give the current frame `n` values. -/
def setTop (m : Machine) (n : Nat) : Machine :=
  m.resize (m.base + n)

/-- The stack position of an index; none when it is outside the current frame. -/
def position? (m : Machine) (idx : Int) : Option Nat :=
  if 0 < idx then
    let pos := m.base + idx.toNat - 1
    if pos < m.stack.size then some pos else none
  else if idx < 0 then
    let back := (-idx).toNat
    if back ≤ m.stack.size - m.base then some (m.stack.size - back) else none
  else none

/-- The index that counts from the bottom of the frame. -/
def absolute (m : Machine) (idx : Int) : Int :=
  if idx < 0 then m.top + idx + 1 else idx

/-- The value at an index, nil outside the current frame. -/
def valueAt (m : Machine) (idx : Int) : Value :=
  match m.position? idx with
  | some pos => m.stack[pos]?.getD .nil
  | none => .nil

/-- Push a value. -/
def push (m : Machine) (v : Value) : Machine :=
  { m with stack := m.stack.push v }

/-- Push several values in order. -/
def pushAll (m : Machine) (vs : List Value) : Machine :=
  vs.foldl push m

/-- Take `n` values off the current frame, or all it has. -/
def pop (m : Machine) (n : Nat) : Machine :=
  m.setTop (m.top - n)

/-- Take the top value off the current frame; nil when the frame is empty. -/
def popValue (m : Machine) : Value × Machine :=
  if m.top = 0 then (.nil, m)
  else (m.stack.back?.getD .nil, { m with stack := m.stack.pop })

/-- Take out the value at an index. -/
def remove (m : Machine) (idx : Int) : Machine :=
  match m.position? idx with
  | some pos => { m with stack := m.stack.eraseIdxIfInBounds pos }
  | none => m

/-- Overwrite the value at an index. -/
def replace (m : Machine) (idx : Int) (v : Value) : Machine :=
  match m.position? idx with
  | some pos => { m with stack := m.stack.setIfInBounds pos v }
  | none => m

/-- The top `n` values, bottom up. -/
def topValues (m : Machine) (n : Nat) : List Value :=
  (m.stack.extract (m.stack.size - n) m.stack.size).toList

/-! ### Strings -/

/-- The string of a text. -/
def intern (m : Machine) (s : String) : Value × Machine :=
  let (id, heap) := m.heap.intern s
  (.string id, { m with heap := heap })

/-- The text of a string. -/
def text? (m : Machine) (v : Value) : Option String :=
  match v with
  | .string id => m.heap.strings.text? id
  | _ => none

/-- The text at an index. -/
def textAt? (m : Machine) (idx : Int) : Option String :=
  m.text? (m.valueAt idx)

/-- Push a value whose text has no place in the heap yet. -/
def pushPlain (m : Machine) : Plain → Machine
  | .nil => m.push .nil
  | .boolean b => m.push (.boolean b)
  | .integer i => m.push (.integer i)
  | .number x => m.push (.number x)
  | .text s =>
    let (v, m) := m.intern s
    m.push v

/-! ### Tables -/

/-- Make a table. -/
def createTable (m : Machine) : Nat × Machine :=
  let (id, heap) := m.heap.addTable {}
  (id, { m with heap := heap })

/-- Store a value in a table without metamethods. -/
def rawSet (m : Machine) (table : Nat) (k v : Value) : Except Failure Machine :=
  if m.heap.tables.live table then
    match k.key? with
    | some key => .ok { m with heap := m.heap.modifyTable table fun t ↦ t.set key v }
    | none => .error (if k.isNil then .keyIsNil else .keyIsNaN)
  else .error .noSuchTable

/-- Store a value at a position of a table, if there is such a table. -/
def rawSetPosition (m : Machine) (table : Nat) (n : Int) (v : Value) : Machine :=
  { m with heap := m.heap.modifyTable table fun t ↦ t.set (.integer n) v }

/-- The value at a position of a table. -/
def rawGetPosition (m : Machine) (table : Nat) (n : Int) : Value :=
  match m.heap.tables.get? table with
  | some t => t.get (.integer n)
  | none => .nil

/-- The length of a table. -/
def rawLength (m : Machine) (table : Nat) : Nat :=
  match m.heap.tables.get? table with
  | some t => t.length
  | none => 0

/-- The reference to nil, for which nothing is stored. -/
def refNil : Int :=
  -1

/-- The reference that is none. -/
def noRef : Int :=
  -2

/-- Store a value in a table under a reference of the table's choice. -/
def reference (m : Machine) (table : Nat) (v : Value) : Int × Machine :=
  if v.isNil then (refNil, m)
  else
    match m.heap.tables.get? table with
    | some t =>
      (t.nextReference, { m with heap := m.heap.modifyTable table fun t ↦ t.reference v })
    | none => (noRef, m)

/-- Release a reference. -/
def unreference (m : Machine) (table : Nat) (r : Int) : Machine :=
  { m with heap := m.heap.modifyTable table fun t ↦ t.unreference r }

/-! ### Metatables -/

/-- The metatable of a value. -/
def metatable? (m : Machine) (v : Value) : Option Nat :=
  match v with
  | .word _ => m.lightMetatable
  | v => m.heap.metatable? v

/-- The field of the metatable of a value, nil when there is none. -/
def metafield (m : Machine) (v : Value) (name : String) : Value :=
  match m.metatable? v with
  | some mt => m.heap.rawGetField mt name
  | none => .nil

/-- Whether a metatable asks for weak values: its mode is a text with the letter v. -/
def asksWeakValues (m : Machine) (mt : Nat) : Bool :=
  match m.text? (m.heap.rawGetField mt "__mode") with
  | some mode => mode.toList.contains 'v'
  | none => false

/-- Give a value a metatable, or none. A table with a metatable that asks for it has weak values. -/
def setMetatable (m : Machine) (v : Value) (mt : Option Nat) : Except Failure Machine :=
  match v with
  | .table id =>
    if m.heap.tables.live id then
      let weak := mt.any m.asksWeakValues
      .ok { m with heap := m.heap.modifyTable id fun t ↦
        { t with metatable := mt, weakValues := weak } }
    else .error .noSuchTable
  | .userdata id =>
    if m.heap.userdata.live id then
      .ok { m with heap := m.heap.modifyUserdata id fun u ↦ { u with metatable := mt } }
    else .error .noSuchUserdata
  | .word _ => .ok { m with lightMetatable := mt }
  | v => .error (.noMetatableFor v.kind)

/-! ### Functions and userdata -/

/-- Make a function. -/
def createFunction (m : Machine) (c : Callable) (name : String) : Value × Machine :=
  let (id, heap) := m.heap.addFunction ⟨c, name⟩
  (.function id, { m with heap := heap })

/-- Make a userdata. -/
def createUserdata (m : Machine) (u : Userdata) : Nat × Machine :=
  let (id, heap) := m.heap.addUserdata u
  (id, { m with heap := heap })

/-- The function of a value, if it is one of the heap. -/
def callable? (m : Machine) (v : Value) : Option Callable :=
  match v with
  | .function id => (m.heap.functions.get? id).map (·.callable)
  | _ => none

/-- The record of a userdata of the bridge. -/
def record? (m : Machine) (id : Nat) : Option Record :=
  (m.heap.userdata.get? id).bind Userdata.record?

/-- Change the record of a userdata of the bridge. -/
def modifyRecord (m : Machine) (id : Nat) (f : Record → Record) : Machine :=
  { m with heap := m.heap.modifyUserdata id fun u ↦
      match u.content with
      | .record r => { u with content := .record (f r) }
      | _ => u }

/-! ### Roots -/

/-- The values from which the collector starts. -/
def roots (m : Machine) : List Value :=
  m.stack.toList ++ [.table m.registry, .table m.globals] ++
    (m.lightMetatable.map Value.table).toList

end Machine

end ObjectBridge
