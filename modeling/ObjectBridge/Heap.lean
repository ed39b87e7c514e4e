import ObjectBridge.StringPool
import ObjectBridge.Table
import ObjectBridge.Userdata

/-!
# The heap

The heap holds strings, tables, functions and userdata under numbers of their own. References
between objects go from tables to their metatables, keys and values, and from userdata to their
metatables and user values; `Heap.links` lists the references of an object that keep their targets
alive. A table with weak values keeps alive only those of its values that are strings.
-/

namespace ObjectBridge

/-- A reference to a heap object. -/
inductive Ref where
  | string (id : Nat)
  | table (id : Nat)
  | function (id : Nat)
  | userdata (id : Nat)
  deriving DecidableEq, Inhabited

/-- The number of an object. -/
def Ref.id : Ref → Nat
  | .string id | .table id | .function id | .userdata id => id

/-- The object that a value refers to. -/
def Value.ref? : Value → Option Ref
  | .string id => some (.string id)
  | .table id => some (.table id)
  | .function id => some (.function id)
  | .userdata id => some (.userdata id)
  | _ => none

/-- The object that a key refers to. -/
def Key.ref? : Key → Option Ref
  | .string id => some (.string id)
  | .table id => some (.table id)
  | .function id => some (.function id)
  | .userdata id => some (.userdata id)
  | _ => none

/-- The objects of a machine. -/
structure Heap where
  strings : StringPool := {}
  tables : SlotStore Table := {}
  functions : SlotStore Function := {}
  userdata : SlotStore Userdata := {}

namespace Heap

instance : Inhabited Heap := ⟨{}⟩

/-- Whether a reference names an object of the heap. -/
def live (h : Heap) : Ref → Bool
  | .string id => (h.strings.text? id).isSome
  | .table id => h.tables.live id
  | .function id => h.functions.live id
  | .userdata id => h.userdata.live id

end Heap

/-- Whether a table keeps the object of one of its values alive. -/
def Table.holds (t : Table) (v : Value) : Bool :=
  !t.weakValues || v.string?.isSome

/-- The references of an entry that keep their targets alive. -/
def Table.entryLinks (t : Table) (entry : Key × Value) : List Ref :=
  entry.1.ref?.toList ++ if t.holds entry.2 then entry.2.ref?.toList else []

/-- The references of a table that keep their targets alive. -/
def Table.links (t : Table) : List Ref :=
  (t.metatable.map Ref.table).toList ++ t.entries.toList.flatMap t.entryLinks

/-- The references of a userdata that keep their targets alive. -/
def Userdata.links (u : Userdata) : List Ref :=
  (u.metatable.map Ref.table).toList ++ u.userValue.ref?.toList

namespace Heap

/-- The references of an object that keep their targets alive. Strings and functions have none. -/
def links (h : Heap) : Ref → List Ref
  | .table id =>
    match h.tables.get? id with
    | some t => t.links
    | none => []
  | .userdata id =>
    match h.userdata.get? id with
    | some u => u.links
    | none => []
  | _ => []

/-- Put a text into the heap. -/
def intern (h : Heap) (s : String) : Nat × Heap :=
  let (id, strings) := h.strings.intern s
  (id, { h with strings := strings })

/-- Put a table into the heap. -/
def addTable (h : Heap) (t : Table) : Nat × Heap :=
  (h.tables.nextId, { h with tables := h.tables.insert t })

/-- Put a function into the heap. -/
def addFunction (h : Heap) (f : Function) : Nat × Heap :=
  (h.functions.nextId, { h with functions := h.functions.insert f })

/-- Put a userdata into the heap. -/
def addUserdata (h : Heap) (u : Userdata) : Nat × Heap :=
  (h.userdata.nextId, { h with userdata := h.userdata.insert u })

/-- Change a table, if there is one of the number. -/
def modifyTable (h : Heap) (id : Nat) (f : Table → Table) : Heap :=
  { h with tables := h.tables.modify id f }

/-- Change a userdata, if there is one of the number. -/
def modifyUserdata (h : Heap) (id : Nat) (f : Userdata → Userdata) : Heap :=
  { h with userdata := h.userdata.modify id f }

/-- The value of a key in a table of the heap. -/
def rawGet (h : Heap) (table : Nat) (k : Value) : Value :=
  match h.tables.get? table with
  | some t => t.rawGet k
  | none => .nil

/-- The value of a text in a table of the heap. The text is not interned: one that is not in the
heap is no key of any table. -/
def rawGetField (h : Heap) (table : Nat) (name : String) : Value :=
  match h.strings.lookup name with
  | some id => h.rawGet table (.string id)
  | none => .nil

/-- The metatable of a value other than a word. -/
def metatable? (h : Heap) : Value → Option Nat
  | .table id => (h.tables.get? id).bind (·.metatable)
  | .userdata id => (h.userdata.get? id).bind (·.metatable)
  | _ => none

end Heap

end ObjectBridge
