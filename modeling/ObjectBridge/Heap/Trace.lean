import ObjectBridge.Heap

/-!
# Tracing

`Heap.trace` finds every object that can be reached from a list of references. It keeps a mark for
every number of the heap and a stack of marked objects whose links have not been followed. Each step
follows the links of the object marked last, and an object enters the stack only when it is marked,
so there are at most as many steps as there are numbers.

A reference to a number that the heap never handed out has no mark. Such a stray reference ends the
trace, which then has found nothing; of several, the one met first is reported.
-/

namespace ObjectBridge

/-- A mark for every number of a heap. -/
structure Marks where
  strings : Array Bool
  tables : Array Bool
  functions : Array Bool
  userdata : Array Bool

/-- A reference to a number that a heap never handed out. -/
structure Stray where
  /-- The number. -/
  id : Nat
  /-- The numbers of its kind lie below this bound. -/
  bound : Nat
  deriving DecidableEq, Inhabited

namespace Marks

/-- No object of the heap is marked. -/
def clear (h : Heap) : Marks where
  strings := Array.replicate h.strings.texts.capacity false
  tables := Array.replicate h.tables.capacity false
  functions := Array.replicate h.functions.capacity false
  userdata := Array.replicate h.userdata.capacity false

/-- Whether an object is marked. -/
def has (m : Marks) : Ref → Bool
  | .string id => m.strings[id]?.getD false
  | .table id => m.tables[id]?.getD false
  | .function id => m.functions[id]?.getD false
  | .userdata id => m.userdata[id]?.getD false

/-- The number of marks of the kind of a reference, set or not. -/
def bound (m : Marks) : Ref → Nat
  | .string _ => m.strings.size
  | .table _ => m.tables.size
  | .function _ => m.functions.size
  | .userdata _ => m.userdata.size

/-- Whether there is a mark for a reference. -/
def covers (m : Marks) (r : Ref) : Bool :=
  r.id < m.bound r

/-- A reference without a mark is a stray one. -/
def stray? (m : Marks) (r : Ref) : Option Stray :=
  if m.covers r then none else some ⟨r.id, m.bound r⟩

/-- Mark an object. -/
def add (m : Marks) : Ref → Marks
  | .string id => { m with strings := m.strings.setIfInBounds id true }
  | .table id => { m with tables := m.tables.setIfInBounds id true }
  | .function id => { m with functions := m.functions.setIfInBounds id true }
  | .userdata id => { m with userdata := m.userdata.setIfInBounds id true }

/-- The number of marks, set or not. -/
def size (m : Marks) : Nat :=
  m.strings.size + m.tables.size + m.functions.size + m.userdata.size

/-- The value keeps no object alive that is not marked. -/
def hasValue (m : Marks) (v : Value) : Bool :=
  match v.ref? with
  | some r => m.has r
  | none => true

/-- A stray reference among the values of a table. -/
def strayValue? (m : Marks) (t : Table) : Option Stray :=
  t.entries.values.findSome? fun v ↦ v.ref?.bind m.stray?

end Marks

/-- The state of a trace: the marks, and the marked objects whose links are to be followed, the
object marked last first. -/
structure Tracing where
  marks : Marks
  pending : List Ref := []

namespace Tracing

/-- Mark an object that is not marked, and have its links followed. -/
def discover (t : Tracing) (r : Ref) : Except Stray Tracing :=
  match t.marks.stray? r with
  | some s => .error s
  | none => .ok (if t.marks.has r then t else ⟨t.marks.add r, r :: t.pending⟩)

/-- Follow links for at most `fuel` objects. -/
def run (h : Heap) : Nat → Tracing → Except Stray Marks
  | 0, t => .ok t.marks
  | fuel + 1, t =>
    match t.pending with
    | [] => .ok t.marks
    | r :: rest =>
      match (h.links r).foldlM discover ⟨t.marks, rest⟩ with
      | .ok t => run h fuel t
      | .error s => .error s

end Tracing

namespace Heap

/-- Mark everything that can be reached from some references, on top of the marks there are. -/
def trace (h : Heap) (m : Marks) (roots : List Ref) : Except Stray Marks :=
  match roots.foldlM Tracing.discover ⟨m, []⟩ with
  | .ok t => t.run h (m.size + 1)
  | .error s => .error s

end Heap

end ObjectBridge
