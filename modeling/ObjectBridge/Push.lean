import ObjectBridge.Members
import ObjectBridge.Recall

/-!
# From objects to values

Pushing an object of the host gives the script value that stands for it, the same value for the same
object as long as scripts hold on to it. These are tried in order:

1. an object that a userdata owns is represented by that userdata;
2. a weak object by its handle, packed or in a userdata found by its slot;
3. another object by its packed address, if there is room for it;
4. otherwise by the userdata that the identity cache has for its root.

A cached userdata may show another view of the object than the one pushed. It stays as it is when
its view is the more derived one, is switched to the pushed view when that is the more derived
one, and is discarded in favour of a new one when the two views have nothing to do with each other:
then another object lies at the same address.
-/

namespace ObjectBridge

namespace Exec

/-- The number of an exported type of the host. -/
def exportedType (t : TypeKey) : Exec Nat := do
  match (← registry).idOf? t with
  | some type => return type
  | none => fail (.unregistered (← typeKeyName t))

/-! ### Views of a userdata -/

/-- Switch a userdata to a view that is more derived than the one it shows. -/
def upgradeView (id type : Nat) (target : Target) : Exec Unit := do
  match ((← machine).record? id).bind Record.type? with
  | some shown =>
    if shown ≠ type ∧ (← registry).isBaseOf shown type then
      let metatable ← typeMetatable type
      modifyMachine fun m ↦
        let m := m.modifyRecord id fun r ↦
          { r with exposed := .declared type, target := target }
        { m with heap := m.heap.modifyUserdata id fun u ↦ { u with metatable := metatable } }
  | none => return

/-- Whether a cached userdata can stand for the object seen as `v`; it is switched or discarded as
need be. -/
def reuse (id : Nat) (v : View) : Exec Bool := do
  let r ← registry
  match ((← machine).record? id).bind Record.type? with
  | none => return false
  | some shown =>
    if shown = v.type ∨ r.isBaseOf v.type shown then return true
    if r.isBaseOf shown v.type then
      upgradeView id v.type (.pointer v.address)
      return true
    modifyMachine (·.modifyRecord id Record.discard)
    return false

/-! ### Borrowed objects -/

/-- The handle of a weak object seen as `v`, if objects of its type are weak. -/
def weakHandle (v : View) : Exec (Option Handle) := do
  let b ← binding
  match (← host).weakHandle? b.registry b.domain v with
  | some (handle, h) =>
    modifyHost fun _ ↦ h
    return some handle
  | none => return none

/-- Whether a cached userdata stands for the weak object of a handle, seen as a type; if so, it is
switched to the type if need be. -/
def rejoin (id : Nat) (handle : Handle) (type : Nat) : Exec Bool := do
  -- The slot may have gone to another object since the userdata was made.
  if ((← machine).record? id).bind Record.handle? ≠ some handle then return false
  upgradeView id type (.weak handle)
  return true

/-- Push a weak object. -/
def pushWeak (v : View) : Exec Unit := do
  let b ← binding
  match ← weakHandle v with
  | none => fail (.noWeakSlot (b.registry.nameOf v.type))
  | some handle =>
    match if b.settings.lightUserdata then b.registry.packWeak? handle v.type else none with
    | some word => push (.word word)
    | none =>
      if ← retrieve (.weak handle.index) (rejoin · handle v.type) then return
      let record : Record :=
        ⟨UInt64.ofNat handle.index, .declared v.type, .borrowed, .weak handle, none⟩
      pushNew (.weak handle.index) record (← typeMetatable v.type)

/-- Push a borrowed object that is not weak. -/
def pushBorrowed (v : View) (key : Address) : Exec Unit := do
  let b ← binding
  match if b.settings.lightUserdata then b.registry.packPointer? v else none with
  | some word => push (.word word)
  | none =>
    if ← retrieve (.borrowed key) (reuse · v) then return
    let record : Record := ⟨key, .declared v.type, .borrowed, .pointer v.address, none⟩
    pushNew (.borrowed key) record (← typeMetatable v.type)

/-- Push the object seen as `v`. -/
def pushView (v : View) : Exec Unit := do
  let r ← registry
  let key := (r.root v).address
  -- An address inside an object that a userdata owns leads back to that userdata.
  if ← retrieve (.owned key) fun _ ↦ return true then return
  if r.isWeak v.type then pushWeak v else pushBorrowed v key

/-- Push the object at an address, seen as a type of the host; no object is pushed as nil. -/
def pushPointer (a : Option Address) (t : TypeKey) : Exec Unit := do
  match a with
  | none => push .nil
  | some a => pushView ⟨a, ← exportedType t⟩

/-! ### Owned and shared objects -/

/-- Push an object of the host that from now on belongs to its userdata. -/
def pushOwned (t : TypeKey) (a : Address) : Exec Unit := do
  let type ← exportedType t
  let b ← binding
  let key := (b.registry.root ⟨a, type⟩).address
  let record : Record := ⟨key, .declared type, .owned, .pointer a, some (.object t a)⟩
  let id ← pushRecord record (← typeMetatable type)
  -- Objects without data share one address, which identifies none of them.
  if ((← host).catalogue.declaration t).size ≠ 0 then
    enrol (.owned key) id

/-- Whether a userdata owns a share in the same kind of block. -/
def ownsLike (id block : Nat) : Exec Bool := do
  let h ← host
  match ((← machine).record? id).bind (·.payload), h.blocks[block]? with
  | some (.share other), some b =>
    return h.blocks[other]?.any fun o ↦ o.sharing = b.sharing ∧ o.type = b.type
  | _, _ => return false

/-- Push a share in an object with several owners. Whether the share went into a new userdata. -/
def pushShare (block : Nat) : Exec Bool := do
  let b := ((← host).blocks[block]?).getD default
  let type ← exportedType b.type
  let key := ((← registry).root ⟨b.address, type⟩).address
  if ← retrieve (.shared key) (ownsLike · block) then return false
  let record : Record := ⟨key, .declared type, .shared, .pointer b.address, some (.share block)⟩
  pushNew (.shared key) record (← typeMetatable type)
  return true

/-! ### Containers -/

/-- Push a container that from now on belongs to its userdata. -/
def pushOwnedContainer (kind : ContainerKind) (a : Address) : Exec Unit := do
  let metatable := (← binding).tables.containerMetatable
  let record : Record := ⟨a, .container kind, .owned, .pointer a, some (.container kind a)⟩
  pushNew (.container a kind) record (some metatable)

/-- Push a container of the host; no container is pushed as nil. -/
def pushContainer (kind : ContainerKind) (a : Option Address) : Exec Unit := do
  match a with
  | none => push .nil
  | some a =>
    if ← retrieve (.container a kind) fun _ ↦ return true then return
    let metatable := (← binding).tables.containerMetatable
    let record : Record := ⟨a, .container kind, .borrowed, .pointer a, none⟩
    pushNew (.container a kind) record (some metatable)

/-! ### Casts -/

/-- The value that stands for the object of `v`, live as `view`, seen as the more derived type
`target` at `a`. -/
def castDown (v : Value) (view : View) (target : Nat) (a : Address) : Exec Value := do
  let r ← registry
  let invalid {α : Type} : Exec α :=
    fail (.invalidCast (r.nameOf view.type) (r.nameOf target))
  let down : View := ⟨a, target⟩
  match v with
  | .word _ =>
    let word? ← if r.isWeak target then do
        match ← weakHandle down with
        | some handle => pure (r.packWeak? handle target)
        | none => pure none
      else pure (r.packPointer? down)
    match word? with
    | some word => return .word word
    | none => invalid
  | .userdata id =>
    if r.isWeak target then
      match ← weakHandle down with
      | some handle => upgradeView id target (.weak handle)
      | none => invalid
    else upgradeView id target (.pointer a)
    return v
  | _ => invalid

/-- The value seen as a type: the value itself when it is of the type or of a derived one, nil when
its object is gone, and otherwise its object as the more derived type, unless the object belongs to
the userdata or tells that it is of another type. -/
def castValue (v : Value) (target : Nat) : Exec Value := do
  let r ← registry
  match ← resolve v with
  | .stale _ => return .nil
  | .foreign =>
    if v.isNil then return .nil
    fail (.invalidCast v.kindName (r.nameOf target))
  | .live view =>
    if r.isBaseOf target view.type then return v
    let owned := (v.userdata?.bind (← machine).record?).any fun own ↦ own.ownership = .owned
    let memory := (← host).memory
    match if owned then none else r.toDerived? memory view target with
    | some a => castDown v view target a
    | none => fail (.invalidCast (r.nameOf view.type) (r.nameOf target))

/-- Push the value at an index, seen as a type. -/
def cast (idx : Int) (target : Nat) : Exec Unit := do
  let v ← valueAt idx
  push (← castValue v target)

end Exec

end ObjectBridge
