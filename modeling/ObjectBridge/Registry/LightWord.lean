import ObjectBridge.Registry

/-!
# Packed words

A machine word can stand for an object. Its top byte is a slot of the registry; a zero top byte
marks a word that is not packed. Below the slot stand either the 56 bit address of an object whose
type owns the slot, or the handle of a weak object of the family that owns the slot, 24 bits of
index and 32 bits of serial. The word is trusted only after its slot is found and, for a handle,
after the serial is found in the table of weak objects.
-/

namespace ObjectBridge

namespace LightWord

/-- The bridge can pack objects into words. -/
def available : Bool :=
  true

/-- The slot of a word. -/
def slot (w : UInt64) : Nat :=
  (w >>> 56).toNat

/-- The 56 bits below the slot. -/
def payload (w : UInt64) : UInt64 :=
  w &&& 0x00ffffffffffffff

/-- The word carries a slot at all. -/
def tagged (w : UInt64) : Bool :=
  slot w ≠ 0

/-- The index of the handle in a word. -/
def index (w : UInt64) : Nat :=
  (payload w >>> 32).toNat

/-- The serial of the handle in a word, as far as it fits. -/
def serial (w : UInt64) : Nat :=
  w.toNat % serialBound

/-- The largest index that fits into a word. -/
def maxIndex : Nat :=
  0xffffff

end LightWord

namespace Registry

/-- The owner of the slot of a word. -/
def lightSlot? (r : Registry) (w : UInt64) : Option LightSlot :=
  if LightWord.tagged w then r.lightSlots[LightWord.slot w - 1]? else none

/-- The slot of a type, if it has one. -/
def slotOf? (r : Registry) (id : Nat) : Option Nat :=
  match r.get? id with
  | some d => if d.lightSlot = 0 then none else some d.lightSlot
  | none => none

/-- Pack the address of an object that is not weak. -/
def packPointer? (r : Registry) (v : View) : Option UInt64 :=
  match r.slotOf? v.type with
  | some slot =>
    if LightWord.slot v.address = 0 then some (UInt64.ofNat slot <<< 56 ||| v.address) else none
  | none => none

/-- Pack the handle of a weak object into the slot of its family. -/
def packWeak? (r : Registry) (h : Handle) (id : Nat) : Option UInt64 :=
  if LightWord.maxIndex < h.index then none
  else match r.slotOf? id with
    | some slot =>
      some (UInt64.ofNat slot <<< 56 ||| UInt64.ofNat h.index <<< 32 |||
        UInt64.ofNat (h.serial % serialBound))
    | none => none

/-- The live object that a word stands for. -/
def resolveWord? (r : Registry) (weak : WeakTable) (w : UInt64) : Option View :=
  match r.lightSlot? w with
  | none => none
  | some (.declared id) =>
    if LightWord.payload w = 0 then none else some ⟨LightWord.payload w, id⟩
  | some (.weakFamily root) =>
    match weak.resolveNarrow (LightWord.index w) (LightWord.serial w) with
    | some v => if (r.get? v.type).bind (·.weakRoot) = some root then some v else none
    | none => none

/-- The type that a word with a handle was packed for, as far as it can still be told: the type in
the slot of the handle, else the root of the family. -/
def staleType? (r : Registry) (weak : WeakTable) (w : UInt64) : Option Nat :=
  match r.lightSlot? w with
  | some (.weakFamily root) =>
    some (((weak.view? (LightWord.index w)).map (·.type)).getD root)
  | _ => none

end Registry

end ObjectBridge
