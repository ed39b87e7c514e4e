import ObjectBridge.World

/-!
# Remembering userdata

How a binding finds the userdata that represents an object. `Exec.enrol` stores a userdata in the
weak valued table and gives it an entry in the identity cache, and `Exec.retrieve` pushes the userdata
that a key has an entry for, if it is still there. An entry that no longer leads to a userdata that
can stand for the object is removed, and its reference is released.
-/

namespace ObjectBridge

namespace Exec

/-- Make a userdata with a record, and push it. -/
def pushRecord (r : Record) (metatable : Option Nat) : Exec Nat := do
  let id ← updateMachine (·.createUserdata { content := .record r, metatable := metatable })
  push (.userdata id)
  return id

/-- Keep a userdata in the weak valued table. -/
def remember (id : Nat) : Exec CacheEntry := do
  let cache := (← binding).tables.cache
  let reference ← updateMachine (·.reference cache (.userdata id))
  return ⟨reference, id⟩

/-- Release the reference of an entry. -/
def forget (e : CacheEntry) : Exec Unit := do
  let cache := (← binding).tables.cache
  modifyMachine (·.unreference cache e.reference)

/-- Push the userdata of an entry, if it is still there. A reference whose userdata the collector
has taken is released; one that has gone to another userdata is left alone. -/
def pushRemembered (e : CacheEntry) : Exec Bool := do
  let b ← binding
  let v := b.machine.rawGetPosition b.tables.cache e.reference
  if v = .userdata e.userdata then
    push v
    return true
  if v.isNil then forget e
  return false

/-- Take the userdata of an entry off the stack again, and release its reference. -/
def dismiss (e : CacheEntry) : Exec Unit := do
  modifyMachine (·.pop 1)
  forget e

/-- Push the userdata that is remembered under a key, if it is still there and fits. Whether it was
pushed; if not, the key has no entry any more. -/
def retrieve (k : CacheKey) (fits : Nat → Exec Bool) : Exec Bool := do
  match (← binding).cache.find? k with
  | none => return false
  | some entry =>
    if ← pushRemembered entry then
      if ← fits entry.userdata then return true
      dismiss entry
    modifyCache (·.erase k)
    return false

/-- Make room for the entry of a key: the entries of weak objects are kept in an array. -/
def makeRoom (k : CacheKey) : Exec Unit := do
  match k with
  | .weak index =>
    let increment := (← binding).settings.cacheIncrement
    reserve (IdentityCache.weakRoom increment index) weakSlotBytes
  | _ => return

/-- Remember a userdata under a key. The reference of the entry that it replaces is released. -/
def enrol (k : CacheKey) (id : Nat) : Exec Unit := do
  let entry ← remember id
  makeRoom k
  let old? := (← binding).cache.find? k
  modifyCache (·.insert k entry)
  if let some old := old? then forget old

/-- Make a userdata with a record, push it, and remember it under a key. -/
def pushNew (k : CacheKey) (r : Record) (metatable : Option Nat) : Exec Unit := do
  let id ← pushRecord r metatable
  enrol k id

end Exec

end ObjectBridge
