import ObjectBridge.Dict
import ObjectBridge.Value.Key

/-!
# Tables

A table maps keys to values other than nil: writing nil erases. A table also hands out references,
small positive integers under which it stores a value in its own entries. A released reference is
reused before a fresh one is made, the one released last first. References and ordinary writes
share the integer keys, and neither looks out for the other.
-/

namespace ObjectBridge

/-- A table of the heap. -/
structure Table where
  /-- The entries. -/
  entries : Dict Key Value := .empty
  /-- The number of the metatable. -/
  metatable : Option Nat := none
  /-- The values do not keep their objects alive. -/
  weakValues : Bool := false
  /-- Released references, the one released last first. -/
  freeRefs : List Nat := []
  /-- The reference that is made when none is free. -/
  nextRef : Nat := 1

namespace Table

instance : Inhabited Table := ⟨{}⟩

/-- The value under a key, nil when there is none. -/
def get (t : Table) (k : Key) : Value :=
  (t.entries.find? k).getD .nil

/-- Store a value under a key; nil erases the entry. -/
def set (t : Table) (k : Key) (v : Value) : Table :=
  { t with entries := if v.isNil then t.entries.erase k else t.entries.insert k v }

/-- The value under the key that a value is; a value that is no key finds nil. -/
def rawGet (t : Table) (k : Value) : Value :=
  match k.key? with
  | some k => t.get k
  | none => .nil

/-- Count on from `n` while the next position is occupied, for at most `fuel` positions. -/
def borderFrom (t : Table) : Nat → Nat → Nat
  | 0, n => n
  | fuel + 1, n =>
    if t.entries.contains (.integer (n + 1 : Nat)) then borderFrom t fuel (n + 1) else n

/-- The length: the first `n` such that position `n + 1` is empty. -/
def length (t : Table) : Nat :=
  t.borderFrom t.entries.size 0

/-- The reference that the next value gets. -/
def nextReference (t : Table) : Nat :=
  t.freeRefs.headD t.nextRef

/-- Store a value under `nextReference`. -/
def reference (t : Table) (v : Value) : Table :=
  match t.freeRefs with
  | r :: rest => { t with freeRefs := rest }.set (.integer r) v
  | [] => { t with nextRef := t.nextRef + 1 }.set (.integer t.nextRef) v

/-- Release a reference that was handed out and is not released yet; any other changes nothing. -/
def unreference (t : Table) (r : Int) : Table :=
  if 0 < r ∧ r < t.nextRef ∧ r.toNat ∉ t.freeRefs then
    let t := t.set (.integer r) .nil
    { t with freeRefs := r.toNat :: t.freeRefs }
  else t

end Table

end ObjectBridge
