import ObjectBridge.Heap
import ObjectBridge.Report

/-!
# Actions on a bare heap

A host can also use a heap without a machine around it. Each action makes one call and reports its
outcome; objects are named by their numbers.
-/

namespace ObjectBridge

/-- One action on a heap. -/
inductive HeapAction where
  | intern (s : String)
  | lookup (s : String)
  | text (id : Nat)
  | addTable
  | table (id : Nat)
  | addFunction (name : String)
  | functionName (id : Nat)
  | addUserdata (n : Int64)
  | userdata (id : Nat)
  /-- Add one to the integer in a userdata. -/
  | increment (id : Nat)
  | counts
  deriving Inhabited

/-- What a table of a bare heap tells: its length, whether it is empty, whether its values are weak,
whether it has a metatable, and that it can be written. -/
def Table.report (t : Table) : Report :=
  .list [.count t.length, .flag (t.entries.size = 0), .flag t.weakValues,
    .flag t.metatable.isSome, .flag true]

/-- What a userdata of a bare heap tells: its integer, nothing as any other type, and whether it has
a metatable. -/
def Userdata.report (u : Userdata) : Report :=
  match u.content with
  | .foreign n => .list [.wide n.toInt, .nothing, .flag u.metatable.isSome]
  | _ => .list [.nothing, .nothing, .flag u.metatable.isSome]

/-- The report of something that may be missing. -/
def Report.optional {α : Type} (f : α → Report) : Option α → Report
  | some a => f a
  | none => .nothing

/-- A userdata with one more in its integer. -/
def Userdata.increment (u : Userdata) : Userdata :=
  match u.content with
  | .foreign n => { u with content := .foreign (n + 1) }
  | _ => u

/-- Perform an action on a heap: its report, and the heap after it. -/
def HeapAction.perform (a : HeapAction) (h : Heap) : Report × Heap :=
  match a with
  | intern s =>
    let (id, h) := h.intern s
    (.count id, h)
  | lookup s => (Report.optional (fun id ↦ .count id) (h.strings.lookup s), h)
  | text id => (Report.optional .text (h.strings.text? id), h)
  | addTable =>
    let (id, h) := h.addTable {}
    (.count id, h)
  | table id => (Report.optional Table.report (h.tables.get? id), h)
  | addFunction name =>
    let (id, h) := h.addFunction ⟨.routine .nothing, name⟩
    (.count id, h)
  | functionName id => (Report.optional (fun f ↦ .text f.name) (h.functions.get? id), h)
  | addUserdata n =>
    let (id, h) := h.addUserdata { content := .foreign n }
    (.count id, h)
  | userdata id => (Report.optional Userdata.report (h.userdata.get? id), h)
  | increment id =>
    let h := h.modifyUserdata id Userdata.increment
    match (h.userdata.get? id).map Userdata.content with
    | some (.foreign n) => (.wide n.toInt, h)
    | _ => (.nothing, h)
  | counts =>
    (.list [.count h.strings.texts.size, .count h.tables.size, .count h.userdata.size], h)

/-- Perform actions in order: their reports, and the heap after them. -/
def HeapAction.performAll : List HeapAction → Heap → List Report × Heap
  | [], h => ([], h)
  | a :: rest, h =>
    let (report, h) := a.perform h
    let (reports, h) := performAll rest h
    (report :: reports, h)

end ObjectBridge
