/-!
# Slot storage

A `SlotStore` keeps values under small numbers that are used again. A freed number goes onto a
stack of free numbers, and the next value takes the number freed last; only when no number is free
does the store grow. Heap objects, weak handles and pins are all kept this way, so the order in
which numbers come back is the same for all of them.
-/

universe u

namespace ObjectBridge

/-- Numbered storage that hands out the number freed last before it grows. -/
structure SlotStore (α : Type u) where
  /-- The slots; an empty one waits for reuse. -/
  slots : Array (Option α) := #[]
  /-- The empty slots, the one freed last first. -/
  free : List Nat := []
  /-- How many values have been inserted and not erased. -/
  count : Nat := 0

namespace SlotStore

variable {α : Type u}

instance : Inhabited (SlotStore α) := ⟨{}⟩

/-- The value stored under `i`. -/
def get? (s : SlotStore α) (i : Nat) : Option α :=
  (s.slots[i]?).join

/-- Whether a value is stored under `i`. -/
def live (s : SlotStore α) (i : Nat) : Bool :=
  (s.get? i).isSome

/-- The number that the next value gets. -/
def nextId (s : SlotStore α) : Nat :=
  s.free.headD s.slots.size

/-- Store a value under `nextId`. -/
def insert (s : SlotStore α) (a : α) : SlotStore α :=
  match s.free with
  | i :: rest => ⟨s.slots.setIfInBounds i (some a), rest, s.count + 1⟩
  | [] => ⟨s.slots.push (some a), [], s.count + 1⟩

/-- Change the value under `i`, if there is one. -/
def modify (s : SlotStore α) (i : Nat) (f : α → α) : SlotStore α :=
  { s with slots := s.slots.modify i (Option.map f) }

/-- Empty the slot `i`, if it holds a value. -/
def erase (s : SlotStore α) (i : Nat) : SlotStore α :=
  if s.live i then ⟨s.slots.setIfInBounds i none, i :: s.free, s.count - 1⟩ else s

/-- The number of values stored. -/
def size (s : SlotStore α) : Nat :=
  s.count

/-- A bound on every number ever handed out, stored under or free. -/
def capacity (s : SlotStore α) : Nat :=
  s.slots.size

/-- The numbers under which a value is stored, in increasing order. -/
def ids (s : SlotStore α) : List Nat :=
  (List.range s.slots.size).filter s.live

/-- Change every stored value. -/
def mapValues (s : SlotStore α) (f : Nat → α → α) : SlotStore α :=
  { s with slots := s.slots.mapIdx fun i o ↦ o.map (f i) }

end SlotStore

end ObjectBridge
