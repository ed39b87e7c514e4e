import ObjectBridge.Number.Binary64

/-!
# The shortest decimal text of a number

A finite number is written with the fewest decimal digits that read back as the same number, and of
the decimals with so few digits the nearest is taken, the larger one on a tie. The digits are
written out in positional notation, however many zeros that takes: integral values have no point,
and no value has an exponent.

A decimal reads back as a number when it lies between the midpoints to the two neighbouring
numbers; the midpoints themselves are included when the significand is even. The search walks from
coarse to fine powers of ten and looks at the two multiples next to the number: if any multiple of
a power of ten lies in the interval, then one of these two does.
-/

namespace ObjectBridge

/-- The decimal number `digits * 10 ^ exponent`. -/
structure Decimal where
  digits : Nat
  exponent : Int
  deriving DecidableEq, Inhabited

namespace Decimal

/-- Trailing zeros behind the point are dropped. -/
def normalize (d : Decimal) : Nat → Decimal
  | 0 => d
  | fuel + 1 =>
    if d.exponent < 0 ∧ d.digits % 10 = 0 ∧ d.digits ≠ 0 then
      normalize ⟨d.digits / 10, d.exponent + 1⟩ fuel
    else d

/-- The digits with the point at its place. -/
def positional (d : Decimal) : String :=
  let digits := Nat.toDigits 10 d.digits
  if 0 ≤ d.exponent then
    String.ofList (digits ++ List.replicate d.exponent.toNat '0')
  else
    let places := (-d.exponent).toNat
    let padded := List.replicate (places + 1 - digits.length) '0' ++ digits
    let whole := padded.length - places
    String.ofList (padded.take whole ++ '.' :: padded.drop whole)

end Decimal

namespace Binary64

/-- The distances, in quarters of the unit, from a number to the midpoints below and above it. The
number below is nearer at the start of a binade. -/
def quarterMargins (x : Binary64) : Nat × Nat :=
  if x.significand = FloatFormat.double.binade ∧ FloatFormat.double.minExponent < x.exponent then
    (1, 2)
  else (2, 2)

/-- The multiple of `10 ^ k` that reads back as `x` and is nearest to it, if there is one among the
two next to `x`. -/
def nearestMultiple? (x : Binary64) (k : Int) : Option Nat :=
  let unit := Nat.pow 10 k.toNat * Nat.pow 2 (2 - x.exponent).toNat
  let scale := Nat.pow 10 (-k).toNat * Nat.pow 2 (x.exponent - 2).toNat
  let value := 4 * x.significand * scale
  let low := (4 * x.significand - x.quarterMargins.1) * scale
  let high := (4 * x.significand + x.quarterMargins.2) * scale
  let closed := x.significand % 2 = 0
  let readsBack (d : Nat) : Bool :=
    if closed then low ≤ d * unit && d * unit ≤ high else low < d * unit && d * unit < high
  let below := value / unit
  match readsBack below, readsBack (below + 1) with
  | true, true =>
    some (if value - below * unit < (below + 1) * unit - value then below else below + 1)
  | true, false => some below
  | false, true => some (below + 1)
  | false, false => none

/-- Search the powers of ten from `10 ^ k` downwards. -/
def searchShortest (x : Binary64) : Nat → Int → Decimal
  | 0, k => ⟨(x.nearestMultiple? k).getD 0, k⟩
  | fuel + 1, k =>
    match x.nearestMultiple? k with
    | some d => ⟨d, k⟩
    | none => searchShortest x fuel (k - 1)

/-- A power of ten above a number that is not zero. -/
def decimalBound (x : Binary64) : Int :=
  Int.fdiv ((x.significand.log2 + 1 + x.exponent) * 30103) 100000 + 1

/-- The shortest decimal that reads back as a finite number, its sign left aside. -/
def shortest (x : Binary64) : Decimal :=
  if x.significand = 0 then ⟨0, 0⟩
  else (x.searchShortest 20 x.decimalBound).normalize 20

/-- The text of a number. -/
def text (x : Binary64) : String :=
  let sign := if x.negative then "-" else ""
  if x.isNaN then "NaN"
  else if x.isFinite then sign ++ x.shortest.positional
  else sign ++ "inf"

end Binary64

end ObjectBridge
