import ObjectBridge.Catalogue
import ObjectBridge.Container
import ObjectBridge.WeakTable

/-!
# The memory of the host

Objects of the host lie at addresses and are made of cells: scalar fields, the actual type of an
object, the anchor of a weak object, or a whole container. Two types that lay out their cells alike
read the same cells through the same address, whichever of them the object was made as. Addresses
are handed out once: memory is never reused, and only objects without data share an address.
-/

namespace ObjectBridge

/-- The anchor of a weak object: the slot it owns, and the registry whose table the slot is in. -/
structure Anchor where
  slot : Option Nat := none
  owner : Option Nat := none
  deriving DecidableEq, Inhabited

/-- What can be at an address. -/
inductive Cell where
  | datum (d : Datum)
  /-- The actual type of the object, when the object tells. -/
  | actualType (t : Option TypeKey)
  | anchor (a : Anchor)
  | container (c : Container)

/-- The memory of the host. -/
structure Memory where
  cells : Dict Address Cell := .empty
  /-- The address of the next object. -/
  next : Nat := 0x10000000

namespace Memory

instance : Inhabited Memory := ⟨{}⟩

/-- The address shared by all objects without data. -/
def dataless : Address :=
  1

/-- An address for a new object of `size` bytes, and the memory in which it is taken. -/
def allocate (m : Memory) (size : Nat) : Address × Memory :=
  if size = 0 then (dataless, m)
  else (UInt64.ofNat m.next, { m with next := m.next + (size + 31) / 16 * 16 })

/-- Write a cell. -/
def write (m : Memory) (a : Address) (c : Cell) : Memory :=
  { m with cells := m.cells.insert a c }

/-- The scalar at an address. -/
def datum? (m : Memory) (a : Address) : Option Datum :=
  match m.cells.find? a with
  | some (.datum d) => some d
  | _ => none

/-- The actual type told at an address. -/
def actualType? (m : Memory) (a : Address) : Option TypeKey :=
  match m.cells.find? a with
  | some (.actualType t) => t
  | _ => none

/-- The anchor at an address; where there is none, a detached one. -/
def anchor (m : Memory) (a : Address) : Anchor :=
  match m.cells.find? a with
  | some (.anchor x) => x
  | _ => {}

/-- The container at an address. -/
def container? (m : Memory) (a : Address) : Option Container :=
  match m.cells.find? a with
  | some (.container c) => some c
  | _ => none

end Memory

/-- The address `offset` bytes above `a`. -/
def Address.up (a : Address) (offset : Nat) : Address :=
  a + UInt64.ofNat offset

/-- The address `offset` bytes below `a`. -/
def Address.down (a : Address) (offset : Nat) : Address :=
  a - UInt64.ofNat offset

end ObjectBridge
