import ObjectBridge.Heap.Trace

/-!
# Collection

One cycle of the collector goes through these steps:

1. everything that can be reached from the roots is marked;
2. userdata that are not marked, have a finalizer and have not been finalized are due;
3. tables with weak values that are marked lose the entries whose values are not marked;
4. the userdata that are due are flagged as finalized, and all that can be reached from them is
   marked as well, so that the finalizers find it;
5. what is still not marked is removed.

A userdata whose finalizer has run is removed by the first cycle that does not reach it.

A stray reference, to a number that the heap never handed out, ends the cycle in the step that meets
it: the first, the third or the fourth. Nothing is removed then, but what the steps before have done
stays done: weak tables with smaller numbers have been cleared, and from the fourth step on the due
userdata are flagged, so that no later cycle has them finalized.
-/

namespace ObjectBridge

/-- How many objects of each kind a collector has removed, and how many it has had finalized. -/
structure Tally where
  strings : Nat := 0
  tables : Nat := 0
  functions : Nat := 0
  userdata : Nat := 0
  finalized : Nat := 0
  deriving DecidableEq, Inhabited

/-- The sums of two tallies. -/
def Tally.add (a b : Tally) : Tally where
  strings := a.strings + b.strings
  tables := a.tables + b.tables
  functions := a.functions + b.functions
  userdata := a.userdata + b.userdata
  finalized := a.finalized + b.finalized

/-- The outcome of a cycle. -/
structure Collection where
  heap : Heap
  /-- The userdata whose finalizers are due, by increasing number. -/
  due : List Nat
  /-- The userdata that were removed, by increasing number. -/
  removed : List Userdata
  tally : Tally

/-- The outcome of a cycle that met a stray reference: the reference, and the heap as the cycle left
it. -/
structure Interruption where
  stray : Stray
  heap : Heap

namespace Heap

/-- A userdata has a finalizer when its metatable has an entry for it. -/
def hasFinalizer (h : Heap) (u : Userdata) : Bool :=
  match u.metatable with
  | some mt => !(h.rawGetField mt "__gc").isNil
  | none => false

/-- The userdata that are not marked, have a finalizer, and have not been finalized. -/
def dueFinalizers (h : Heap) (m : Marks) : List Nat :=
  h.userdata.ids.filter fun id ↦
    !m.has (.userdata id) &&
      match h.userdata.get? id with
      | some u => !u.finalized && h.hasFinalizer u
      | none => false

/-- Take the entries with unmarked values out of the marked tables with weak values whose numbers
lie below `bound`. -/
def clearWeak (h : Heap) (m : Marks) (bound : Nat) : Heap :=
  { h with tables := h.tables.mapValues fun id t ↦
      if id < bound && t.weakValues && m.has (.table id) then
        { t with entries := t.entries.filter fun _ v ↦ m.hasValue v }
      else t }

/-- The first marked table with weak values that has a stray reference among them, and the
reference. -/
def weakStray? (h : Heap) (m : Marks) : Option (Nat × Stray) :=
  h.tables.ids.findSome? fun id ↦
    match h.tables.get? id with
    | some t =>
      if t.weakValues && m.has (.table id) then (m.strayValue? t).map (id, ·) else none
    | none => none

/-- Flag userdata as finalized. -/
def flagFinalized (h : Heap) (ids : List Nat) : Heap :=
  ids.foldl (fun h id ↦ h.modifyUserdata id fun u ↦ { u with finalized := true }) h

/-- The strings that are not marked. -/
def deadStrings (h : Heap) (m : Marks) : List Nat :=
  h.strings.texts.ids.filter fun id ↦ !m.has (.string id)

/-- The tables that are not marked. -/
def deadTables (h : Heap) (m : Marks) : List Nat :=
  h.tables.ids.filter fun id ↦ !m.has (.table id)

/-- The functions that are not marked. -/
def deadFunctions (h : Heap) (m : Marks) : List Nat :=
  h.functions.ids.filter fun id ↦ !m.has (.function id)

/-- The userdata that are not marked. -/
def deadUserdata (h : Heap) (m : Marks) : List Nat :=
  h.userdata.ids.filter fun id ↦ !m.has (.userdata id)

/-- Remove everything that is not marked. -/
def sweep (h : Heap) (m : Marks) : Heap where
  strings := (h.deadStrings m).foldl StringPool.erase h.strings
  tables := (h.deadTables m).foldl SlotStore.erase h.tables
  functions := (h.deadFunctions m).foldl SlotStore.erase h.functions
  userdata := (h.deadUserdata m).foldl SlotStore.erase h.userdata

/-- One cycle of the collector. -/
def collect (h : Heap) (roots : List Value) : Except Interruption Collection :=
  match h.trace (Marks.clear h) (roots.filterMap Value.ref?) with
  | .error stray => .error ⟨stray, h⟩
  | .ok reached =>
    let due := h.dueFinalizers reached
    match h.weakStray? reached with
    | some (id, stray) => .error ⟨stray, h.clearWeak reached id⟩
    | none =>
      let h := (h.clearWeak reached h.tables.capacity).flagFinalized due
      match h.trace reached (due.map Ref.userdata) with
      | .error stray => .error ⟨stray, h⟩
      | .ok kept => .ok
        { heap := h.sweep kept
          due := due
          removed := (h.deadUserdata kept).filterMap h.userdata.get?
          tally :=
            { strings := (h.deadStrings kept).length
              tables := (h.deadTables kept).length
              functions := (h.deadFunctions kept).length
              userdata := (h.deadUserdata kept).length
              finalized := due.length } }

end Heap

end ObjectBridge
