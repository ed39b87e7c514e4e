import ObjectBridge.SlotStore

/-!
# Pins

The host pins a script object by a handle that it can copy. The object stays in a table of the
machine, under a reference, until the last copy of the handle is dropped. Dropping a handle may
happen at any time, also while the machine is at work, so the reference is only queued, and is
released when the machine is next entered.
-/

namespace ObjectBridge

/-- A pinned object: its reference, and the number of handles. -/
structure Pin where
  reference : Int
  handles : Nat
  deriving DecidableEq, Inhabited

/-- The pins of one machine. -/
structure PinTable where
  pins : SlotStore Pin := {}
  /-- References whose last handle is gone, in the order in which they went. -/
  released : List Int := []

/-- A handle: a slot in the pins of one machine. -/
structure PinHandle where
  owner : Nat
  index : Nat
  deriving DecidableEq, Inhabited

namespace PinTable

instance : Inhabited PinTable := ⟨{}⟩

/-- The slot of the next pin. -/
def nextIndex (t : PinTable) : Nat :=
  t.pins.nextId

/-- Pin the object of a reference, with one handle. -/
def add (t : PinTable) (reference : Int) : PinTable :=
  { t with pins := t.pins.insert ⟨reference, 1⟩ }

/-- The reference of a pin. -/
def reference? (t : PinTable) (index : Nat) : Option Int :=
  (t.pins.get? index).map (·.reference)

/-- One more handle. -/
def addHandle (t : PinTable) (index : Nat) : PinTable :=
  { t with pins := t.pins.modify index fun p ↦ { p with handles := p.handles + 1 } }

/-- One handle less; the last one frees the slot and queues the reference. -/
def dropHandle (t : PinTable) (index : Nat) : PinTable :=
  match t.pins.get? index with
  | some p =>
    if p.handles = 1 then
      { pins := t.pins.erase index, released := t.released ++ [p.reference] }
    else { t with pins := t.pins.modify index fun p ↦ { p with handles := p.handles - 1 } }
  | none => t

/-- The number of pinned objects. -/
def liveCount (t : PinTable) : Nat :=
  t.pins.ids.length

end PinTable

/-- The text that shows a handle to the host: its slot, and the reference that is pinned there. -/
def PinHandle.text (h : PinHandle) (reference : Option Int) : String :=
  let shown := match reference with
    | some r => "Some(" ++ r.repr ++ ")"
    | none => "None"
  "ObjRef(index=" ++ h.index.repr ++ ", ref_id=" ++ shown ++ ")"

end ObjectBridge
