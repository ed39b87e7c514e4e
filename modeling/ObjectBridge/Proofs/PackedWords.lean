import Mathlib.Algebra.Group.Nat.Defs
import ObjectBridge.Proofs.Lineage
import ObjectBridge.Registry.LightWord

/-!
# Packing and unpacking words

The slot, the index and the serial that a handle is packed with can be read off the word, the serial
as far as it fits (`Registry.fields_packWeak`), and the slot and the address that an address is packed
with off that word (`Registry.fields_packPointer`). So a word leads to the family of weak objects, or to
the one type, that the slot belongs to.
-/

namespace ObjectBridge

namespace LightWord

/-- Two numbers whose bits do not meet are joined by adding them. -/
private theorem shiftLeft_or {a b n : Nat} (hb : b < 2 ^ n) : a <<< n ||| b = a * 2 ^ n + b := by
  rw [← Nat.shiftLeft_add_eq_or_of_lt hb, Nat.shiftLeft_eq]

private theorem toNat_ofNat {n : Nat} (hn : n < 2 ^ 64) : (UInt64.ofNat n).toNat = n := by
  rw [UInt64.toNat_ofNat']
  exact Nat.mod_eq_of_lt hn

/-- A slot in the top byte, and something below it. -/
theorem toNat_slot_or {slot : Nat} {below : UInt64} (hslot : slot ≤ 255)
    (hbelow : below.toNat < 2 ^ 56) :
    (UInt64.ofNat slot <<< 56 ||| below).toNat = slot * 2 ^ 56 + below.toNat := by
  have hshift : (UInt64.ofNat slot <<< 56).toNat = slot <<< 56 := by
    rw [UInt64.toNat_shiftLeft, toNat_ofNat (by omega)]
    show slot <<< 56 % 2 ^ 64 = slot <<< 56
    rw [Nat.shiftLeft_eq]
    omega
  rw [UInt64.toNat_or, hshift, shiftLeft_or hbelow]

/-- An index in the middle bits, and a serial below it. -/
theorem toNat_index_or {index serial : Nat} (hindex : index ≤ maxIndex)
    (hserial : serial < serialBound) :
    (UInt64.ofNat index <<< 32 ||| UInt64.ofNat serial).toNat = index * 2 ^ 32 + serial := by
  have hmax : index ≤ 0xffffff := hindex
  have hbound : serial < 2 ^ 32 := hserial
  have hshift : (UInt64.ofNat index <<< 32).toNat = index <<< 32 := by
    rw [UInt64.toNat_shiftLeft, toNat_ofNat (by omega)]
    show index <<< 32 % 2 ^ 64 = index <<< 32
    rw [Nat.shiftLeft_eq]
    omega
  rw [UInt64.toNat_or, hshift, toNat_ofNat (by omega), shiftLeft_or hbound]

theorem slot_eq (w : UInt64) : slot w = w.toNat / 2 ^ 56 := by
  show (w >>> 56).toNat = _
  rw [UInt64.toNat_shiftRight]
  show w.toNat >>> 56 = _
  rw [Nat.shiftRight_eq_div_pow]

theorem payload_eq (w : UInt64) : (payload w).toNat = w.toNat % 2 ^ 56 := by
  rw [payload, UInt64.toNat_and]
  show w.toNat &&& (2 ^ 56 - 1) = _
  rw [Nat.and_two_pow_sub_one_eq_mod]

theorem index_eq (w : UInt64) : index w = w.toNat % 2 ^ 56 / 2 ^ 32 := by
  rw [index, UInt64.toNat_shiftRight, payload_eq]
  show (w.toNat % 2 ^ 56) >>> 32 = _
  rw [Nat.shiftRight_eq_div_pow]

end LightWord

namespace Registry

variable {r : Registry}

/-- The slot of a type is a byte, and belongs to the type or to its weak family. -/
theorem Sound.slotOf?_eq_some (hs : r.Sound) {type slot : Nat} (h : r.slotOf? type = some slot) :
    ∃ d, r.get? type = some d ∧ slot ≠ 0 ∧ slot ≤ 255 ∧
      r.lightSlots[slot - 1]? = some d.slotOwner := by
  rw [slotOf?] at h
  cases hd : r.get? type with
  | none => simp [hd] at h
  | some d =>
    simp only [hd] at h
    split at h
    · exact absurd h (by simp)
    · rename_i hzero
      obtain rfl := Option.some.inj h
      exact ⟨d, rfl, hzero, hs.slot_le hd, hs.slot_owner hd hzero⟩

/-- The owner of the slot in the top byte of a word. -/
theorem lightSlot?_of_slot {w : UInt64} {slot : Nat} (hslot : LightWord.slot w = slot)
    (hzero : slot ≠ 0) : r.lightSlot? w = r.lightSlots[slot - 1]? := by
  rw [lightSlot?, LightWord.tagged, hslot]
  simp [hzero]

/-- **What a packed handle is made of can be read off the word**, the serial as far as it fits. -/
theorem Sound.fields_packWeak (hs : r.Sound) {h : Handle} {type : Nat} {w : UInt64}
    (hw : r.packWeak? h type = some w) (hweak : r.isWeak type = true) :
    (∃ root, (r.get? type).bind (·.weakRoot) = some root ∧
        r.lightSlot? w = some (.weakFamily root)) ∧
      LightWord.index w = h.index ∧ LightWord.serial w = h.serial % serialBound := by
  rw [packWeak?] at hw
  split at hw
  · exact absurd hw (by simp)
  · rename_i hindex
    cases hslot : r.slotOf? type with
    | none => simp [hslot] at hw
    | some slot =>
      obtain ⟨d, hd, hzero, hle, howner⟩ := hs.slotOf?_eq_some hslot
      simp only [hslot, Option.some.injEq] at hw
      have hmax : h.index ≤ 0xffffff := by
        rw [LightWord.maxIndex] at hindex
        omega
      have hserial : h.serial % serialBound < 2 ^ 32 := Nat.mod_lt _ (by decide)
      have hbelow := LightWord.toNat_index_or hmax hserial
      have hword : w.toNat = slot * 2 ^ 56 + (h.index * 2 ^ 32 + h.serial % serialBound) := by
        rw [← hw, UInt64.or_assoc, LightWord.toNat_slot_or hle (by rw [hbelow]; omega), hbelow]
      have hslotw : LightWord.slot w = slot := by
        rw [LightWord.slot_eq, hword]
        omega
      obtain ⟨root, hroot⟩ : ∃ root, d.weakRoot = some root := by
        rw [isWeak, hd] at hweak
        exact Option.isSome_iff_exists.1 hweak
      refine ⟨⟨root, ?_, ?_⟩, ?_, ?_⟩
      · rw [hd, Option.bind_some, hroot]
      · rw [lightSlot?_of_slot hslotw hzero, howner, Descriptor.slotOwner, hroot]
      · rw [LightWord.index_eq, hword]
        omega
      · rw [LightWord.serial, hword]
        show _ % 2 ^ 32 = _
        omega

/-- **The slot of its type and the address can be read off the word of an address.** -/
theorem Sound.fields_packPointer (hs : r.Sound) {v : View} {w : UInt64}
    (hw : r.packPointer? v = some w) (hweak : r.isWeak v.type = false) :
    r.lightSlot? w = some (.declared v.type) ∧ LightWord.payload w = v.address := by
  rw [packPointer?] at hw
  cases hslot : r.slotOf? v.type with
  | none => simp [hslot] at hw
  | some slot =>
    obtain ⟨d, hd, hzero, hle, howner⟩ := hs.slotOf?_eq_some hslot
    simp only [hslot] at hw
    split at hw
    · rename_i haddress
      have hbelow : v.address.toNat < 2 ^ 56 := by
        rw [LightWord.slot_eq] at haddress
        have hlt := v.address.toNat_lt
        omega
      have hword : w.toNat = slot * 2 ^ 56 + v.address.toNat := by
        rw [← Option.some.inj hw, LightWord.toNat_slot_or hle hbelow]
      have hslotw : LightWord.slot w = slot := by
        rw [LightWord.slot_eq, hword]
        omega
      have hroot : d.weakRoot = none := by
        rw [isWeak, hd] at hweak
        exact Option.isSome_eq_false_iff.1 hweak |> Option.isNone_iff_eq_none.1
      refine ⟨?_, ?_⟩
      · rw [lightSlot?_of_slot hslotw hzero, howner, Descriptor.slotOwner, hroot, hs.id_eq hd]
      · rw [← UInt64.toNat_inj, LightWord.payload_eq, hword]
        omega
    · exact absurd hw (by simp)

/-- The word of an address leads back to it, unless the address is none. -/
theorem Sound.resolveWord?_packPointer (hs : r.Sound) {v : View} {w : UInt64}
    (hw : r.packPointer? v = some w) (hweak : r.isWeak v.type = false) (hne : v.address ≠ 0)
    (t : WeakTable) : r.resolveWord? t w = some v := by
  obtain ⟨hslot, hpayload⟩ := hs.fields_packPointer hw hweak
  simp only [resolveWord?, hslot, hpayload, if_neg hne]

end Registry

end ObjectBridge
