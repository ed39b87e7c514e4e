/-!
# Binary floating point formats

A format is described by its precision and by the exponent of its smallest unit. Every finite
magnitude is a whole number of units `m` scaled by a power of two, and the magnitude bits of a
format count the magnitudes from zero upwards, so that rounding up from the largest value of one
binade runs into the first value of the next, and from the largest finite value into infinity.

`FloatFormat.nearest` is the one rounding rule: to the nearest magnitude, ties to the even one.
All of it is arithmetic on `Nat` and `Int`.
-/

namespace ObjectBridge

/-- `n / 2 ^ s`, rounded to the nearest whole number, a tie to the even one. -/
def roundHalfEven (n s : Nat) : Nat :=
  let unit := Nat.pow 2 s
  let q := n / unit
  let r := n % unit
  if unit < 2 * r ∨ (2 * r = unit ∧ q % 2 = 1) then q + 1 else q

/-- A binary floating point format. -/
structure FloatFormat where
  /-- Binary digits of a full significand, the leading one included. -/
  precision : Nat
  /-- The exponent of the smallest positive magnitude. -/
  minExponent : Int
  /-- The number of binades, the one of the subnormal magnitudes included. -/
  binades : Nat

namespace FloatFormat

/-- The 64 bit format. -/
def double : FloatFormat :=
  ⟨53, -1074, 2047⟩

/-- The 32 bit format. -/
def single : FloatFormat :=
  ⟨24, -149, 255⟩

/-- The number of magnitudes in one binade. -/
def binade (f : FloatFormat) : Nat :=
  Nat.pow 2 (f.precision - 1)

/-- The magnitude bits of infinity: above it stand the bits that are not a number. -/
def infinity (f : FloatFormat) : Nat :=
  f.binades * f.binade

/-- The significand of the finite magnitude with bits `b`. -/
def significand (f : FloatFormat) (b : Nat) : Nat :=
  if b / f.binade = 0 then b % f.binade else f.binade + b % f.binade

/-- The exponent of the finite magnitude with bits `b`. -/
def exponent (f : FloatFormat) (b : Nat) : Int :=
  if b / f.binade = 0 then f.minExponent else f.minExponent + (b / f.binade - 1 : Nat)

/-- The exponent of the unit in which `m * 2 ^ e` is rounded. -/
def unitExponent (f : FloatFormat) (m : Nat) (e : Int) : Int :=
  max (m.log2 + e - (f.precision - 1 : Nat)) f.minExponent

/-- `m * 2 ^ e` as a whole number of units `2 ^ u`, rounded. -/
def roundToUnit (m : Nat) (e u : Int) : Nat :=
  if u ≤ e then m * Nat.pow 2 (e - u).toNat else roundHalfEven m (u - e).toNat

/-- The magnitude bits nearest to `m * 2 ^ e`. -/
def nearest (f : FloatFormat) (m : Nat) (e : Int) : Nat :=
  if m = 0 then 0 else
    let u := f.unitExponent m e
    min f.infinity ((u - f.minExponent).toNat * f.binade + roundToUnit m e u)

end FloatFormat

end ObjectBridge
