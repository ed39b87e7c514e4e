/-!
# The table of weak objects

Scripts do not hold the address of an object that the host may destroy at any time: they hold a
handle, the number of a slot and a serial. Serials are never used twice, so a handle resolves only
while the slot still belongs to the object it was made for, whatever object comes to occupy the
slot later. The slot records the address of the object and the type of the most derived view under
which it has been seen.

Slots are reused like those of any other store: the slot freed last is taken first.
-/

namespace ObjectBridge

/-- An address in the memory of the host. -/
abbrev Address := UInt64

/-- An object seen as a type: the address of the view and the number of the type. -/
structure View where
  address : Address
  type : Nat
  deriving DecidableEq, Inhabited

/-- The handle of a weak object. -/
structure Handle where
  index : Nat
  serial : Nat
  deriving DecidableEq, Inhabited

/-- The serials that a handle of 32 bits can tell apart. -/
def serialBound : Nat :=
  0x100000000

/-- A slot: the view of the object that occupies it, and the serial of its handle. -/
structure WeakSlot where
  view : Option View := none
  serial : Nat := 0
  deriving DecidableEq, Inhabited

/-- The weak objects of one registry. -/
structure WeakTable where
  slots : Array WeakSlot := #[]
  /-- The free slots, the one freed last first. -/
  free : List Nat := []
  nextSerial : Nat := 1

namespace WeakTable

instance : Inhabited WeakTable := ⟨{}⟩

/-- The slot that the next object gets. -/
def nextIndex (t : WeakTable) : Nat :=
  t.free.headD t.slots.size

/-- The handle that the next object gets. -/
def nextHandle (t : WeakTable) : Handle :=
  ⟨t.nextIndex, t.nextSerial⟩

/-- Give an object the slot and the serial of `nextHandle`. -/
def allocate (t : WeakTable) (view : View) : WeakTable :=
  let slot : WeakSlot := ⟨some view, t.nextSerial⟩
  match t.free with
  | i :: rest => ⟨t.slots.setIfInBounds i slot, rest, t.nextSerial + 1⟩
  | [] => ⟨t.slots.push slot, [], t.nextSerial + 1⟩

/-- The view of the object that occupies a slot. -/
def view? (t : WeakTable) (index : Nat) : Option View :=
  t.slots[index]?.bind (·.view)

/-- Free a slot; a slot that is not occupied stays as it is. -/
def release (t : WeakTable) (index : Nat) : WeakTable :=
  match t.view? index with
  | some _ => { t with slots := t.slots.setIfInBounds index {}, free := index :: t.free }
  | none => t

/-- The view of the object a handle was made for, while its slot has the serial of the handle. -/
def resolve (t : WeakTable) (h : Handle) : Option View :=
  match t.slots[h.index]? with
  | some s => if s.serial = h.serial then s.view else none
  | none => none

/-- Like `resolve`, for a handle of whose serial only the low 32 bits are known. -/
def resolveNarrow (t : WeakTable) (index serial : Nat) : Option View :=
  match t.slots[index]? with
  | some s => if s.serial % serialBound = serial then s.view else none
  | none => none

/-- The handle of the object that occupies a slot. -/
def current (t : WeakTable) (index : Nat) : Option Handle :=
  match t.slots[index]? with
  | some s => s.view.map fun _ ↦ ⟨index, s.serial⟩
  | none => none

/-- Record another view of the object in a slot. -/
def upgrade (t : WeakTable) (index : Nat) (view : View) : WeakTable :=
  { t with slots := t.slots.modify index fun s ↦ { s with view := some view } }

/-- The number of occupied slots. -/
def liveCount (t : WeakTable) : Nat :=
  t.slots.size - t.free.length

end WeakTable

end ObjectBridge
