import ObjectBridge.Library
import ObjectBridge.Program.Operand

/-!
# Actions on objects of the host
-/

namespace ObjectBridge

/-- What a record tells about itself. -/
def Record.report (r : Record) (registry : Registry) (metatable : Bool) : Report :=
  .fields [
    ("kind", match r.exposed with
      | .declared type => .list [.text "declared", .text (registry.nameOf type)]
      | .container kind => .list [.text "collection", .text kind.name]),
    ("minor", .ownership r.ownership),
    ("target", .target r.target),
    ("payload", .flag r.payload.isSome),
    ("meta", .flag metatable),
    ("ok", .flag true)]

namespace Exec

/-- The object of a name: its type and its address. -/
def namedObject (name : String) : Exec (Option (TypeKey × Address)) :=
  return (← desk).objects.find? name

/-- Do something with the object of a name; nothing is done when there is none. -/
def withObject (name : String) (body : TypeKey → Address → Exec Report) : Exec Report := do
  match ← namedObject name with
  | some (t, a) => body t a
  | none => return .nothing

/-- Do something with the block of a name; nothing is done when there is none. -/
def withShare (name : String) (body : Nat → Block → Exec Report) : Exec Report := do
  match (← desk).shares.find? name with
  | some block =>
    match (← host).blocks[block]? with
    | some b => body block b
    | none => return .nothing
  | none => return .nothing

/-- Keep a share under a name; the share that had the name is given back. -/
def keepShare (name : String) (block : Nat) : Exec Unit := do
  let old := (← desk).shares.find? name
  modifyDesk fun d ↦ { d with shares := d.shares.insert name block }
  if let some old := old then modifyHost (·.dropOwner old)

/-- Show an object seen as a `t`. -/
def exhibit (t : TypeKey) (a : Address) : Exec Report :=
  return (← host).exhibit t a

/-- Show an object seen as a `t`, if there is one. -/
def exhibitSome (t : TypeKey) (a : Option Address) : Exec Report :=
  match a with
  | some a => exhibit t a
  | none => return .nothing

/-- The address of an object of type `t` at `a`, seen as `view`: one of its bases, or a type with
the same layout. -/
def viewAddress (t : TypeKey) (a : Address) (view : TypeKey) : Exec Address :=
  return a.up (((← host).catalogue.offsetOf? t view).getD 0)

/-- Make an object and push it with its ownership; an object that cannot be pushed is destroyed. -/
def pushCreated (t : TypeKey) (given : List (String × Initial)) : Exec Unit := do
  let a ← updateHost (·.create t given)
  -- Without a type to push it as, the object has no owner.
  if ((← registry).idOf? t).isNone then
    modifyHost (·.destroy t a)
  pushOwned t a

/-- Push one more share in the object of a block. The share is given back unless it went into a new
userdata. -/
def pushOneShare (block : Nat) : Exec Unit := do
  modifyHost (·.addOwner block)
  let kept ← tryCatch (pushShare block) fun i ↦ do
    modifyHost (·.dropOwner block)
    throw i
  if !kept then
    modifyHost (·.dropOwner block)

/-- What the userdata of a value is: nothing, one that the host put there itself, or a record. -/
def inspect (v : Value) : Exec Report := do
  let b ← binding
  match v.userdata?.bind b.machine.heap.userdata.get? with
  | none => return .nothing
  | some u =>
    match u.record? with
    | some r => return r.report b.registry u.metatable.isSome
    | none => return .text "foreign"

/-- Add to the integer that the host put into a userdata. -/
def addForeign (v : Value) (n : Int64) : Exec Report := do
  let m ← machine
  match v.userdata? with
  | some id =>
    match (m.heap.userdata.get? id).map Userdata.content with
    | some (.foreign k) =>
      modifyMachine fun m ↦ { m with heap := m.heap.modifyUserdata id fun u ↦
        { u with content := .foreign (k + n) } }
      return .count (k + n).toInt
    | _ => return .nothing
  | none => return .nothing

end Exec

/-- Make the call of an action on objects and report its outcome. -/
def ObjectAction.perform : ObjectAction → Exec Report
  | create name t given => do
    let a ← Exec.updateHost (·.create t given)
    Exec.modifyDesk fun d ↦ { d with objects := d.objects.insert name (t, a) }
    return .nothing
  | destroy name => Exec.withObject name fun t a ↦
    Exec.silently (Exec.modifyHost (·.destroy t a))
  | detach name => Exec.withObject name fun t a ↦ do
    match (← Exec.host).catalogue.anchorOffset? t with
    | some offset => Exec.silently (Exec.modifyHost (·.detach (a.up offset)))
    | none => return .nothing
  | anchorSlot name => Exec.withObject name fun t a ↦ do
    let h ← Exec.host
    return Exec.shownCount <| (h.catalogue.anchorOffset? t).bind fun offset ↦
      (h.memory.anchor (a.up offset)).slot
  | examine name => Exec.withObject name Exec.exhibit
  | pushPointer name view => Exec.withObject name fun t a ↦ do
    let a ← Exec.viewAddress t a view
    Exec.pushPointer (some a) view
    Exec.shownTop
  | pushNull t => Exec.silently (Exec.pushPointer none t)
  | pushOwned t given => Exec.silently (Exec.pushCreated t given)
  | share s name t given => do
    let block ← Exec.updateHost (·.createShared s t given)
    Exec.silently (Exec.keepShare name block)
  | pushShared name => Exec.withShare name fun block _ ↦
    Exec.silently (Exec.pushOneShare block)
  | pushSharedPointer name => Exec.withShare name fun _ b ↦ do
    Exec.pushPointer (some b.address) b.type
    Exec.shownTop
  | ownerCount name => Exec.withShare name fun _ b ↦ return .count b.owners
  | dropShared name => Exec.withShare name fun block _ ↦ do
    Exec.modifyDesk fun d ↦ { d with shares := d.shares.erase name }
    Exec.modifyHost (·.dropOwner block)
    return .nothing
  | load idx t => do
    let a ← Exec.loadPointer idx t
    Exec.exhibitSome t a
  | check idx t => do
    let a ← Exec.checkPointer idx t
    Exec.exhibitSome t a
  | argument idx t => do
    let a ← Exec.argumentPointer idx t
    Exec.exhibit t a
  | loadShared s idx t => do
    let block ← Exec.loadShare s idx t
    match (← Exec.host).blocks[block]? with
    | some b => return .list [← Exec.exhibit t b.address, .count (b.owners + 1)]
    | none => return .nothing
  | repush idx t => do
    let a ← Exec.loadPointer idx t
    Exec.pushPointer a t
    Exec.shownTop
  | cast idx name => do
    match (← Exec.registry).find? name with
    | some target => do
      Exec.cast idx target
      Exec.shownTop
    | none => Exec.fail (.unknownType name)
  | inspect v => do
    let v ← Exec.operand v
    Exec.inspect v
  | weakResolve handle t => do
    let b ← Exec.binding
    let h ← Exec.host
    match b.registry.idOf? t with
    | some type => Exec.exhibitSome t (h.resolveHandle? b.registry b.domain handle type)
    | none => return .text "unregistered"
  | weakCount => do
    return .count (← Exec.weakTable).liveCount
  | pushForeign n => do
    let id ← Exec.updateMachine (·.createUserdata { content := .foreign n })
    Exec.push (.userdata id)
    return .nothing
  | addForeign v n => do
    let v ← Exec.operand v
    Exec.addForeign v n

end ObjectBridge
