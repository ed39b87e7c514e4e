import ObjectBridge.Number.Format

/-!
# Floating point numbers as words

Numbers of scripts are 64 bit floating point words, numbers of the host may have 32 bits. Both are
kept as their bits, and what scripts can see of them is defined on the bits: the exact integer a
float stands for, the float nearest to an integer, equality, and the passage between the widths.
-/

namespace ObjectBridge

/-- A 64 bit floating point number. -/
structure Binary64 where
  /-- The word that represents it. -/
  bits : UInt64
  deriving DecidableEq, Inhabited

/-- A 32 bit floating point number. -/
structure Binary32 where
  /-- The word that represents it. -/
  bits : UInt32
  deriving DecidableEq, Inhabited

namespace Binary32

/-- The word in which only the sign bit is set. -/
def signBit : Nat :=
  0x80000000

/-- The sign bit is set. -/
def negative (x : Binary32) : Bool :=
  signBit ≤ x.bits.toNat

/-- The word without its sign bit. -/
def magnitude (x : Binary32) : Nat :=
  x.bits.toNat % signBit

/-- Not a number. -/
def isNaN (x : Binary32) : Bool :=
  FloatFormat.single.infinity < x.magnitude

end Binary32

namespace Binary64

/-- The word in which only the sign bit is set. -/
def signBit : Nat :=
  0x8000000000000000

/-- The sign bit is set. -/
def negative (x : Binary64) : Bool :=
  signBit ≤ x.bits.toNat

/-- The word without its sign bit. -/
def magnitude (x : Binary64) : Nat :=
  x.bits.toNat % signBit

/-- Not a number. -/
def isNaN (x : Binary64) : Bool :=
  FloatFormat.double.infinity < x.magnitude

/-- Neither infinite nor not a number. -/
def isFinite (x : Binary64) : Bool :=
  x.magnitude < FloatFormat.double.infinity

/-- The whole number of units `2 ^ exponent` that a finite number is, its sign left aside. -/
def significand (x : Binary64) : Nat :=
  FloatFormat.double.significand x.magnitude

/-- The exponent of the unit of a finite number. -/
def exponent (x : Binary64) : Int :=
  FloatFormat.double.exponent x.magnitude

/-- The number with the given sign and magnitude bits. -/
def ofMagnitude (negative : Bool) (magnitude : Nat) : Binary64 :=
  ⟨UInt64.ofNat ((if negative then signBit else 0) + magnitude)⟩

/-- The integer that a finite number with an integral value is. -/
def toInt? (x : Binary64) : Option Int :=
  if x.isFinite then
    let m : Option Nat :=
      if 0 ≤ x.exponent then some (x.significand * Nat.pow 2 x.exponent.toNat)
      else if x.significand % Nat.pow 2 (-x.exponent).toNat = 0 then
        some (x.significand / Nat.pow 2 (-x.exponent).toNat)
      else none
    m.map fun n ↦ if x.negative then -(n : Int) else n
  else none

/-- The number nearest to an integer, ties to the even significand. -/
def ofInt (i : Int) : Binary64 :=
  ofMagnitude (i < 0) (FloatFormat.double.nearest i.natAbs 0)

/-- Equality of numbers: the two zeros are equal, and what is not a number equals nothing. -/
def numEq (x y : Binary64) : Bool :=
  !x.isNaN && !y.isNaN && (x.bits = y.bits || (x.magnitude = 0 && y.magnitude = 0))

/-- The 32 bit number nearest to `x`. -/
def toBinary32 (x : Binary64) : Binary32 :=
  let magnitude :=
    if x.isNaN then FloatFormat.single.infinity + FloatFormat.single.binade / 2
    else if x.isFinite then FloatFormat.single.nearest x.significand x.exponent
    else FloatFormat.single.infinity
  ⟨UInt32.ofNat ((if x.negative then Binary32.signBit else 0) + magnitude)⟩

/-- The 64 bit number equal to `x`. -/
def ofBinary32 (x : Binary32) : Binary64 :=
  let magnitude :=
    if x.isNaN then FloatFormat.double.infinity + FloatFormat.double.binade / 2
    else if x.magnitude < FloatFormat.single.infinity then
      FloatFormat.double.nearest (FloatFormat.single.significand x.magnitude)
        (FloatFormat.single.exponent x.magnitude)
    else FloatFormat.double.infinity
  ofMagnitude x.negative magnitude

end Binary64

end ObjectBridge
