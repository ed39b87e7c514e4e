import ObjectBridge.Memory
import ObjectBridge.Registry
import ObjectBridge.Userdata

/-!
# The side of the host

`Host` is everything the bridge sees of the program it is embedded in: the declared types, the
memory with its objects, the tables of weak objects of all registries, the blocks of objects with
several owners, and a record of what has been noted about destroyed objects.

The anchor of a weak object remembers which slot of which table the object owns. An object takes a
slot when it is first seen by a registry (`Host.acquire`), gives it back when another registry sees
it or when it is detached or destroyed (`Host.detach`), and so owns at most one slot at a time.
-/

namespace ObjectBridge

/-- An object with several owners. -/
structure Block where
  sharing : Sharing
  type : TypeKey
  address : Address
  /-- The number of owners. -/
  owners : Nat
  deriving Inhabited

/-- The host. -/
structure Host where
  catalogue : Catalogue := default
  memory : Memory := {}
  /-- The weak objects of each registry; the table of a registry that is gone is gone too. -/
  weakTables : Array (Option WeakTable) := #[]
  blocks : Array Block := #[]
  /-- What destroyed objects left behind, the latest first. -/
  farewells : List Datum := []

namespace Host

instance : Inhabited Host := ⟨{}⟩

/-- The weak objects of a registry. -/
def weakTable? (h : Host) (domain : Nat) : Option WeakTable :=
  (h.weakTables[domain]?).join

/-- The weak objects of a registry, none if the registry is gone. -/
def weakTable (h : Host) (domain : Nat) : WeakTable :=
  (h.weakTable? domain).getD {}

/-- Replace the weak objects of a registry. -/
def setWeakTable (h : Host) (domain : Nat) (t : WeakTable) : Host :=
  { h with weakTables := h.weakTables.setIfInBounds domain (some t) }

/-- Add a registry, and tell its number. -/
def addRegistry (h : Host) : Nat × Host :=
  (h.weakTables.size, { h with weakTables := h.weakTables.push (some {}) })

/-- A registry goes away, and its table with it. -/
def dropRegistry (h : Host) (domain : Nat) : Host :=
  { h with weakTables := h.weakTables.setIfInBounds domain none }

/-- The anchor whose cell is at `cell` gives its slot back, if it owns one. -/
def detach (h : Host) (cell : Address) : Host :=
  match h.memory.anchor cell with
  | ⟨none, _⟩ => h
  | ⟨some slot, owner⟩ =>
    let h := { h with memory := h.memory.write cell (.anchor {}) }
    match owner with
    | none => h
    | some domain =>
      match h.weakTable? domain with
      | some t => h.setWeakTable domain (t.release slot)
      | none => h

/-- The handle of a weak object seen as `view`, given the slot it owns. A view that is more derived
than the recorded one replaces it. -/
def weakAcquire (r : Registry) (t : WeakTable) (slot : Option Nat) (view : View) :
    Handle × WeakTable :=
  match slot.bind t.current with
  | some handle =>
    match t.view? handle.index with
    | some known =>
      if known.type ≠ view.type ∧ r.isBaseOf known.type view.type then
        (handle, t.upgrade handle.index view)
      else (handle, t)
    | none => (handle, t)
  | none => (t.nextHandle, t.allocate view)

/-- The handle of the weak object with the anchor at `cell`, in the table of a registry. -/
def acquire (h : Host) (r : Registry) (domain : Nat) (cell : Address) (view : View) :
    Handle × Host :=
  let attached := (h.memory.anchor cell).owner = some domain ∧ (h.weakTable? domain).isSome
  let h := if attached then h else h.detach cell
  let (handle, t) := weakAcquire r (h.weakTable domain) (h.memory.anchor cell).slot view
  let h := h.setWeakTable domain t
  let memory := h.memory.write cell (.anchor ⟨some handle.index, some domain⟩)
  (handle, { h with memory := memory })

/-- The handle of a weak object seen as `view`; none for an object that is not weak. The anchor is
looked for in the topmost base of the object. -/
def weakHandle? (h : Host) (r : Registry) (domain : Nat) (view : View) : Option (Handle × Host) :=
  match (r.get? view.type).bind (·.anchor) with
  | some offset => some (h.acquire r domain ((r.root view).address.up offset) view)
  | none => none

/-- The address at which the object of a handle is a `type`, while it lives. -/
def resolveHandle? (h : Host) (r : Registry) (domain : Nat) (handle : Handle) (type : Nat) :
    Option Address :=
  match (h.weakTable domain).resolve handle with
  | some view => r.toSuper? view type
  | none => none

/-! ### Objects -/

/-- What the destruction of an object of type `t`, at an address, does on the level of `t` itself:
its anchor gives its slot back, and its datum is noted. -/
def destroyLevel (h : Host) (t : TypeKey) (a : Address) : Host :=
  let d := h.catalogue.declaration t
  let h := match d.anchor with
    | some offset => h.detach (a.up offset)
    | none => h
  match d.farewell with
  | some offset => { h with farewells := (h.memory.datum? (a.up offset)).getD .absent :: h.farewells }
  | none => h

/-- Destroy an object, its bases last. Its memory stays. -/
def destroy (h : Host) (t : TypeKey) (a : Address) : Host :=
  (h.catalogue.lineage t).foldl (fun h level ↦ h.destroyLevel level.1 (a.up level.2)) h

/-- Make room for an object of type `t`. -/
def allocate (h : Host) (t : TypeKey) : Address × Host :=
  let (a, memory) := h.memory.allocate (h.catalogue.declaration t).size
  (a, { h with memory := memory })

/-- Put a container into the memory. -/
def addContainer (h : Host) (c : Container) : Address × Host :=
  let (a, memory) := h.memory.allocate 24
  (a, { h with memory := memory.write a (.container c) })

/-! ### Objects with several owners -/

/-- Put an object, which has its own place in memory, under the care of one owner. -/
def share (h : Host) (s : Sharing) (t : TypeKey) (a : Address) : Nat × Host :=
  (h.blocks.size, { h with blocks := h.blocks.push ⟨s, t, a, 1⟩ })

/-- One more owner. -/
def addOwner (h : Host) (block : Nat) : Host :=
  { h with blocks := h.blocks.modify block fun b ↦ { b with owners := b.owners + 1 } }

/-- One owner less; the last one destroys the object. -/
def dropOwner (h : Host) (block : Nat) : Host :=
  match h.blocks[block]? with
  | some b =>
    let h := { h with blocks := h.blocks.modify block fun b ↦ { b with owners := b.owners - 1 } }
    if b.owners = 1 then h.destroy b.type b.address else h
  | none => h

/-- Destroy what a record owns. -/
def dropPayload (h : Host) : Payload → Host
  | .object t a => h.destroy t a
  | .share block => h.dropOwner block
  | .container _ _ => h

/-- Destroy what a userdata that is removed from the heap still owns. -/
def dropUserdata (h : Host) (u : Userdata) : Host :=
  match u.record?.bind (·.payload) with
  | some p => h.dropPayload p
  | none => h

end Host

end ObjectBridge
