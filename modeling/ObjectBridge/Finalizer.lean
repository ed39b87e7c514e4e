import ObjectBridge.Call
import ObjectBridge.Recall

/-!
# Finalizers

When the collector finds a userdata of the bridge unreachable, its finalizer takes it apart: the
record is discarded, the entry of the identity cache is removed if it is still the entry of this
userdata, and what the record owns is destroyed. A record that has been taken apart owns nothing, so
a second run changes nothing.

`Exec.collect` is one cycle of the collector followed by the finalizers that are due. A finalizer
that fails does not keep the others from running. `Exec.collectAll` runs cycles until one has
nothing to finalize. A cycle that meets a stray reference is a panic, and what it had done to the heap
by then stays done.
-/

namespace ObjectBridge

namespace Record

/-- Whether a record stands for a weak object. -/
def standsForWeak (r : Record) (registry : Registry) : Bool :=
  r.handle?.isSome || r.type?.any registry.isWeak

/-- The key under which the userdata of a record is remembered. -/
def cacheKey (r : Record) (registry : Registry) : CacheKey :=
  match r.ownership, r.exposed with
  | .shared, _ => .shared r.key
  | .borrowed, .container kind | .owned, .container kind => .container r.key kind
  | .owned, .declared _ => .owned r.key
  | .borrowed, .declared _ =>
    if r.standsForWeak registry then .weak (r.key.toNat % 0x100000000) else .borrowed r.key

end Record

namespace Exec

/-- Take a userdata of the bridge apart. -/
def finalizeRecord (id : Nat) (r : Record) : Exec Unit := do
  let b ← binding
  -- The payload is taken out first, so that it is destroyed once.
  modifyMachine (·.modifyRecord id fun r ↦ { r.discard with payload := none })
  let key := r.cacheKey b.registry
  if let some entry := b.cache.entryOf key id then
    modifyCache (·.erase key)
    forget entry
  if let some p := r.payload then
    modifyHost (·.dropPayload p)

/-- The finalizer of the bridge: take argument 1 apart. -/
def finalize : Exec Nat := do
  let m ← machine
  match (m.valueAt 1).userdata? with
  | some id =>
    match m.record? id with
    | some r => finalizeRecord id r
    | none => pure ()
  | none => pure ()
  return 0

/-- Run the finalizer of a userdata. Its failure is of no consequence. -/
def runFinalizer (run : Runner) (id : Nat) : Exec Unit := do
  let m ← machine
  let handler := m.metafield (.userdata id) "__gc"
  if handler.isNil then return
  push handler
  push (.userdata id)
  let _ ← attempt (tryCall run 1 (some 0))
  modifyMachine (·.setTop m.top)

/-- The panic at a stray reference. -/
def strayText (s : Stray) : String :=
  "index out of bounds: the len is " ++ s.bound.repr ++ " but the index is " ++ s.id.repr

/-- One cycle of the collector; the userdata whose finalizers are due. -/
def sweep : Exec (List Nat) := do
  flushPins
  let m ← machine
  match m.heap.collect m.roots with
  | .error i =>
    modifyMachine fun m ↦ { m with heap := i.heap }
    panic (some (strayText i.stray))
  | .ok c =>
    modifyMachine fun m ↦ { m with heap := c.heap, tally := m.tally.add c.tally }
    modifyHost fun h ↦ c.removed.foldl Host.dropUserdata h
    return c.due

/-- One cycle of the collector, and the finalizers that are due. How many there were. -/
def collect (run : Runner) : Exec Nat := do
  let due ← sweep
  due.forM (runFinalizer run)
  return due.length

/-- Run cycles until one has nothing to finalize, at most `rounds` of them. How many userdata were
finalized. -/
def collectAll (run : Runner) : Nat → Exec Nat
  | 0 => throw .exhausted
  | rounds + 1 => do
    let n ← collect run
    if n = 0 then return 0
    return n + (← collectAll run rounds)

end Exec

end ObjectBridge
