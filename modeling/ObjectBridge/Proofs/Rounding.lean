import ObjectBridge.Proofs.Conversions

/-!
# Rounding to the nearest

The nearest number of a format, `FloatFormat.nearest`, is computed from bits. A number that the
format has is the nearest to itself (`FloatFormat.nearest_of_exact`), so an integer that is some
float is rounded to that float, the two zeros apart (`Binary64.ofInt_of_toInt?`), and rounding to a
float changes no such integer (`Binary64.toInt?_ofInt`). The integers of up to 53 binary digits are
floats, and so is the next power of two (`Binary64.exists_toInt?_eq`).

Two floats are equal when they are the same bits or the two zeros (`Binary64.numEq_iff`).
-/

namespace ObjectBridge

/-! ### Powers of two -/

/-- A factor of a power of two moves the leading digit. -/
theorem log2_mul_two_pow {s : Nat} (hs : s ≠ 0) (k : Nat) : (s * 2 ^ k).log2 = s.log2 + k := by
  have hpos : 0 < 2 ^ k := Nat.two_pow_pos k
  rw [Nat.log2_eq_iff (Nat.mul_ne_zero hs hpos.ne'), Nat.add_right_comm, Nat.pow_add, Nat.pow_add]
  exact ⟨Nat.mul_le_mul_right _ (Nat.log2_self_le hs),
    Nat.mul_lt_mul_of_pos_right Nat.lt_log2_self hpos⟩

/-- Two multiples of powers of two that are the same number. -/
theorem eq_mul_two_pow {m s : Nat} {e x : Int} (h : (m * 2 ^ e : ℚ) = s * 2 ^ x) (hle : e ≤ x) :
    m = s * 2 ^ (x - e).toNat := by
  obtain ⟨k, rfl⟩ := Int.le.dest hle
  have hne : (2 ^ e : ℚ) ≠ 0 := zpow_ne_zero _ (by decide)
  rw [zpow_add₀ (by decide), zpow_natCast, mul_comm (2 ^ e : ℚ), ← mul_assoc] at h
  have hm : (m : ℚ) = s * 2 ^ k := mul_right_cancel₀ hne h
  rw [add_sub_cancel_left, Int.toNat_natCast]
  exact_mod_cast hm

theorem log2_add_eq {m s : Nat} {e x : Int} (hm : m ≠ 0) (hs : s ≠ 0)
    (h : (m * 2 ^ e : ℚ) = s * 2 ^ x) : m.log2 + e = s.log2 + x := by
  rcases Int.le_total e x with hle | hle
  · rw [eq_mul_two_pow h hle, log2_mul_two_pow hs]
    omega
  · rw [eq_mul_two_pow h.symm hle, log2_mul_two_pow hm]
    omega

theorem roundHalfEven_mul_two_pow (s k : Nat) : roundHalfEven (s * 2 ^ k) k = s := by
  have hpos : 0 < 2 ^ k := Nat.two_pow_pos k
  change (if 2 ^ k < 2 * (s * 2 ^ k % 2 ^ k) ∨
    (2 * (s * 2 ^ k % 2 ^ k) = 2 ^ k ∧ s * 2 ^ k / 2 ^ k % 2 = 1) then s * 2 ^ k / 2 ^ k + 1
      else s * 2 ^ k / 2 ^ k) = s
  rw [Nat.mul_mod_left, Nat.mul_div_cancel _ hpos, if_neg (by omega)]

/-! ### Formats -/

namespace FloatFormat

variable (f : FloatFormat) (b : Nat)

theorem binade_pos : 0 < f.binade :=
  Nat.two_pow_pos _

theorem minExponent_le_exponent : f.minExponent ≤ f.exponent b := by
  rw [exponent]
  split <;> omega

/-- The bits of a magnitude count the magnitudes of the binades below it. -/
theorem bits_eq : (f.exponent b - f.minExponent).toNat * f.binade + f.significand b = b := by
  have hdiv := Nat.div_add_mod' b f.binade
  rw [exponent, significand]
  split
  · rename_i hzero
    rw [hzero] at hdiv
    simpa using hdiv
  · rename_i hne
    obtain ⟨k, hk⟩ := Nat.exists_eq_succ_of_ne_zero hne
    rw [hk, Nat.succ_mul] at hdiv
    rw [hk, add_sub_cancel_left, Nat.succ_sub_one, Int.toNat_natCast]
    omega

theorem significand_lt : f.significand b < 2 * f.binade := by
  have hmod := Nat.mod_lt b f.binade_pos
  rw [significand]
  split <;> omega

/-- A significand has all its digits, unless the unit is the smallest. -/
theorem binade_le_significand (h : f.exponent b ≠ f.minExponent) : f.binade ≤ f.significand b := by
  rw [significand]
  split
  · rename_i hzero
    exact absurd (by rw [exponent, if_pos hzero]) h
  · exact Nat.le_add_right _ _

/-- A significand with all its digits, under any exponent. -/
theorem significand_bits {s : Nat} (hlow : f.binade ≤ s) (hhigh : s < 2 * f.binade) (k : Nat) :
    f.significand (k * f.binade + s) = s ∧ f.exponent (k * f.binade + s) = f.minExponent + k := by
  have hdiv : (k * f.binade + s) / f.binade = k + 1 := by
    rw [Nat.div_eq_iff f.binade_pos, Nat.succ_mul]
    omega
  have hmod : (k * f.binade + s) % f.binade = s - f.binade := by
    have hsum := Nat.div_add_mod' (k * f.binade + s) f.binade
    rw [hdiv, Nat.succ_mul] at hsum
    omega
  rw [significand, exponent, hdiv, hmod, if_neg (Nat.succ_ne_zero k), if_neg (Nat.succ_ne_zero k)]
  exact ⟨Nat.add_sub_cancel' hlow, rfl⟩

variable {f b}

/-- **A number of the format is the nearest to itself.** -/
theorem nearest_of_exact (hb : b ≤ f.infinity) {m : Nat} {e : Int} (hm : m ≠ 0)
    (h : (m * 2 ^ e : ℚ) = f.significand b * 2 ^ f.exponent b) : f.nearest m e = b := by
  have hs : f.significand b ≠ 0 := by
    rintro hzero
    rw [hzero, Nat.cast_zero, zero_mul] at h
    exact mul_ne_zero (Nat.cast_ne_zero.2 hm) (zpow_ne_zero _ (by decide)) h
  have hunit : f.unitExponent m e = f.exponent b := by
    have hlog := log2_add_eq hm hs h
    have hlt : (f.significand b).log2 < f.precision - 1 + 1 := by
      rw [Nat.log2_lt hs, Nat.pow_succ, Nat.mul_comm]
      exact f.significand_lt b
    rw [unitExponent, hlog]
    by_cases hmin : f.exponent b = f.minExponent
    · omega
    · have hle : f.precision - 1 ≤ (f.significand b).log2 :=
        (Nat.le_log2 hs).2 (f.binade_le_significand b hmin)
      have hexp := f.minExponent_le_exponent b
      omega
  have hround : roundToUnit m e (f.exponent b) = f.significand b := by
    rw [roundToUnit]
    split
    · rename_i hle
      exact (eq_mul_two_pow h.symm hle).symm
    · rename_i hlt
      rw [eq_mul_two_pow h (by omega)]
      exact roundHalfEven_mul_two_pow _ _
  rw [nearest, if_neg hm]
  dsimp only
  rw [hunit, hround, f.bits_eq, Nat.min_eq_right hb]

end FloatFormat

/-! ### Floats -/

namespace Binary64

variable {x y : Binary64}

theorem magnitude_ofMagnitude (negative : Bool) {m : Nat} (hm : m < signBit) :
    (ofMagnitude negative m).magnitude = m := by
  have hm' : m < 2 ^ 63 := hm
  rw [magnitude, ofMagnitude, UInt64.toNat_ofNat']
  show ((if negative = true then 2 ^ 63 else 0) + m) % 2 ^ 64 % 2 ^ 63 = m
  split <;> omega

theorem negative_ofMagnitude (negative : Bool) {m : Nat} (hm : m < signBit) :
    (ofMagnitude negative m).negative = negative := by
  have hm' : m < 2 ^ 63 := hm
  rw [Binary64.negative, ofMagnitude, UInt64.toNat_ofNat']
  show decide (2 ^ 63 ≤ ((if negative = true then 2 ^ 63 else 0) + m) % 2 ^ 64) = negative
  cases negative
  · exact decide_eq_false (by simp only [Bool.false_eq_true, if_false]; omega)
  · exact decide_eq_true (by simp only [if_true]; omega)

theorem ofMagnitude_self (x : Binary64) : ofMagnitude x.negative x.magnitude = x := by
  have hlt : x.bits.toNat < 2 ^ 64 := x.bits.toNat_lt
  have hbits : (if x.negative then signBit else 0) + x.magnitude = x.bits.toNat := by
    rw [negative, magnitude]
    show (if decide (2 ^ 63 ≤ x.bits.toNat) = true then 2 ^ 63 else 0) + x.bits.toNat % 2 ^ 63 = _
    simp only [decide_eq_true_eq]
    split <;> omega
  rw [ofMagnitude, hbits, UInt64.ofNat_toNat]

theorem infinity_lt_signBit : FloatFormat.double.infinity < signBit := by
  decide

theorem nearest_le_infinity (f : FloatFormat) (m : Nat) (e : Int) : f.nearest m e ≤ f.infinity := by
  rw [FloatFormat.nearest]
  split
  · exact Nat.zero_le _
  · exact Nat.min_le_left _ _

theorem magnitude_ofInt (n : Int) :
    (ofInt n).magnitude = FloatFormat.double.nearest n.natAbs 0 :=
  magnitude_ofMagnitude _ (Nat.lt_of_le_of_lt (nearest_le_infinity _ _ _) infinity_lt_signBit)

theorem isNaN_ofInt (n : Int) : (ofInt n).isNaN = false := by
  rw [isNaN, magnitude_ofInt, decide_eq_false_iff_not, Nat.not_lt]
  exact nearest_le_infinity _ _ _

/-- No integer but zero is rounded to zero. -/
theorem magnitude_ofInt_eq_zero {n : Int} : (ofInt n).magnitude = 0 ↔ n = 0 := by
  rw [magnitude_ofInt, FloatFormat.nearest]
  constructor
  · intro h
    by_contra hn
    rw [if_neg (by omega)] at h
    have hunit : (1 : Nat) ≤ (FloatFormat.double.unitExponent n.natAbs 0 -
        FloatFormat.double.minExponent).toNat := by
      have hle := le_max_left (n.natAbs.log2 + 0 - (FloatFormat.double.precision - 1 : Nat) : Int)
        FloatFormat.double.minExponent
      rw [FloatFormat.unitExponent]
      simp only [FloatFormat.double] at hle ⊢
      omega
    have hbinade := Nat.mul_le_mul_right FloatFormat.double.binade hunit
    have hpos : 0 < FloatFormat.double.infinity := by decide
    have hpos' := FloatFormat.double.binade_pos
    rw [Nat.one_mul] at hbinade
    rw [Nat.min_def] at h
    split at h <;> omega
  · rintro rfl
    rfl

theorem toInt?_of_magnitude_eq_zero (h : x.magnitude = 0) : x.toInt? = some 0 := by
  have hvalue : x.isFinite = true ∧ x.value = (0 : Int) := by
    refine ⟨by rw [isFinite, h]; decide, ?_⟩
    rw [value, significand, h]
    simp [FloatFormat.significand]
  exact toInt?_eq_some_iff.2 hvalue

theorem magnitude_eq_zero_of_toInt? (h : x.toInt? = some 0) : x.magnitude = 0 := by
  have hvalue := (toInt?_eq_some_iff.1 h).2
  have hsignificand : x.significand = 0 := by
    rw [value, Int.cast_zero, mul_eq_zero, mul_eq_zero] at hvalue
    rcases hvalue with hsign | hzero | hpow
    · split at hsign <;> simp at hsign
    · exact_mod_cast hzero
    · exact absurd hpow (zpow_ne_zero _ (by decide))
  rw [significand] at hsignificand
  have hexponent : FloatFormat.double.exponent x.magnitude = FloatFormat.double.minExponent := by
    by_contra hne
    have hle := FloatFormat.double.binade_le_significand _ hne
    have hpos := FloatFormat.double.binade_pos
    omega
  rw [← FloatFormat.double.bits_eq x.magnitude, hsignificand, hexponent]
  simp

/-- **An integer that a float is, is rounded to that float**, except that there are two zeros. -/
theorem ofInt_of_toInt? {n : Int} (hn : n ≠ 0) (h : x.toInt? = some n) : ofInt n = x := by
  obtain ⟨hfinite, hvalue⟩ := toInt?_eq_some_iff.1 h
  have hnonneg : (0 : ℚ) ≤ x.significand * 2 ^ x.exponent :=
    mul_nonneg (Nat.cast_nonneg _) (zpow_nonneg (by decide) _)
  have hsign : decide (n < 0) = x.negative ∧ (n.natAbs * 2 ^ (0 : Int) : ℚ) =
      x.significand * 2 ^ x.exponent := by
    rw [Nat.cast_natAbs, Int.cast_abs, zpow_zero, mul_one, ← hvalue, value]
    rw [value] at hvalue
    cases hx : x.negative with
    | true =>
      rw [hx] at hvalue
      simp only [if_true, neg_mul, one_mul] at hvalue ⊢
      have hle : (n : ℚ) ≤ 0 := by linarith
      have hle' : n ≤ 0 := by exact_mod_cast hle
      exact ⟨decide_eq_true (lt_of_le_of_ne hle' hn), by rw [abs_neg, abs_of_nonneg hnonneg]⟩
    | false =>
      rw [hx] at hvalue
      simp only [Bool.false_eq_true, if_false, one_mul] at hvalue ⊢
      have hle : (0 : ℚ) ≤ n := by linarith
      have hle' : 0 ≤ n := by exact_mod_cast hle
      exact ⟨decide_eq_false (not_lt.2 hle'), abs_of_nonneg hnonneg⟩
  have hlt : x.magnitude < FloatFormat.double.infinity := of_decide_eq_true hfinite
  rw [ofInt, hsign.1, FloatFormat.nearest_of_exact (Nat.le_of_lt hlt) (Int.natAbs_ne_zero.2 hn) hsign.2,
    ofMagnitude_self]

/-- A magnitude that is the absolute value of an integer, under its sign. -/
theorem toInt?_ofMagnitude {n : Int} {b : Nat} (hb : b < FloatFormat.double.infinity)
    (h : (FloatFormat.double.significand b * 2 ^ FloatFormat.double.exponent b : ℚ) = n.natAbs) :
    (ofMagnitude (n < 0) b).toInt? = some n := by
  have hfits := Nat.lt_trans hb infinity_lt_signBit
  have hmagnitude := magnitude_ofMagnitude (decide (n < 0)) hfits
  refine toInt?_eq_some_iff.2 ⟨?_, ?_⟩
  · rw [isFinite, hmagnitude]
    exact decide_eq_true hb
  · rw [value, negative_ofMagnitude _ hfits, significand, exponent, hmagnitude, h, Nat.cast_natAbs,
      Int.cast_abs]
    by_cases hneg : n < 0
    · rw [decide_eq_true hneg, if_pos rfl, abs_of_neg (Int.cast_lt_zero.2 hneg)]
      exact (neg_one_mul _).trans (neg_neg _)
    · rw [decide_eq_false hneg, if_neg (by simp), one_mul,
        abs_of_nonneg (Int.cast_nonneg (not_lt.1 hneg))]

/-- A float has room for 53 binary digits, and the next power of two is one again. -/
theorem exists_toInt?_eq {n : Int} (hn : n.natAbs ≤ 2 ^ 53) : ∃ x : Binary64, x.toInt? = some n := by
  rcases Nat.eq_or_lt_of_le hn with hn | hn
  · obtain rfl | rfl : n = 2 ^ 53 ∨ n = -2 ^ 53 := by omega
    · exact ⟨⟨0x4340000000000000⟩, by decide⟩
    · exact ⟨⟨0xc340000000000000⟩, by decide⟩
  by_cases hzero : n.natAbs = 0
  · obtain rfl := Int.natAbs_eq_zero.1 hzero
    exact ⟨⟨0⟩, toInt?_of_magnitude_eq_zero (by decide)⟩
  obtain ⟨k, hk⟩ : ∃ k, k = n.natAbs.log2 := ⟨_, rfl⟩
  have hle : k ≤ 52 := by
    rw [hk]
    exact Nat.le_of_lt_succ ((Nat.log2_lt hzero).2 hn)
  -- the leading digit of the integer becomes that of the significand
  obtain ⟨s, hs⟩ : ∃ s, s = n.natAbs * 2 ^ (52 - k) := ⟨_, rfl⟩
  have hlog : s.log2 = 52 := by
    rw [hs, log2_mul_two_pow hzero]
    omega
  have hlow : 2 ^ 52 ≤ s := hlog ▸ Nat.log2_self_le (by rintro rfl; simp at hlog)
  have hhigh : s < 2 ^ 53 := (Nat.log2_lt (by omega)).1 (by omega)
  obtain ⟨hsignificand, hexponent⟩ := FloatFormat.double.significand_bits hlow
    (hhigh.trans_eq (Nat.pow_succ' (m := 2) (n := 52))) (k + 1022)
  refine ⟨_, toInt?_ofMagnitude (b := (k + 1022) * FloatFormat.double.binade + s) ?_ ?_⟩
  · show (k + 1022) * 2 ^ 52 + s < 2047 * 2 ^ 52
    omega
  · have hunit : FloatFormat.double.minExponent + (k + 1022 : Nat) = -((52 - k : Nat) : Int) := by
      show (-1074 : Int) + (k + 1022 : Nat) = _
      omega
    rw [hsignificand, hexponent, hunit, hs, zpow_neg, zpow_natCast, Nat.cast_mul, Nat.cast_pow,
      Nat.cast_ofNat, mul_assoc, mul_inv_cancel₀ (by positivity), mul_one]

theorem numEq_iff : x.numEq y = true ↔
    (x.isNaN = false ∧ y.isNaN = false) ∧ (x = y ∨ x.magnitude = 0 ∧ y.magnitude = 0) := by
  have hbits : x.bits = y.bits ↔ x = y := by
    cases x
    cases y
    simp
  simp [numEq, hbits]

theorem numEq_comm (x y : Binary64) : x.numEq y = y.numEq x := by
  rw [Bool.eq_iff_iff, numEq_iff, numEq_iff]
  exact ⟨fun h ↦ ⟨h.1.symm, h.2.imp Eq.symm And.symm⟩, fun h ↦ ⟨h.1.symm, h.2.imp Eq.symm And.symm⟩⟩

theorem isNaN_eq_false_of_toInt? {n : Int} (h : x.toInt? = some n) : x.isNaN = false := by
  have hfinite := (toInt?_eq_some_iff.1 h).1
  have hlt : x.magnitude < FloatFormat.double.infinity := of_decide_eq_true hfinite
  exact decide_eq_false (Nat.lt_asymm hlt)

/-- Two floats that are integers are equal if they are the same integer. -/
theorem numEq_of_toInt? {n : Int} (hx : x.toInt? = some n) (hy : y.toInt? = some n) :
    x.numEq y = true := by
  refine numEq_iff.2 ⟨⟨isNaN_eq_false_of_toInt? hx, isNaN_eq_false_of_toInt? hy⟩, ?_⟩
  by_cases hn : n = 0
  · subst hn
    exact Or.inr ⟨magnitude_eq_zero_of_toInt? hx, magnitude_eq_zero_of_toInt? hy⟩
  · exact Or.inl ((ofInt_of_toInt? hn hx).symm.trans (ofInt_of_toInt? hn hy))

theorem toInt?_eq_of_numEq (h : x.numEq y = true) : x.toInt? = y.toInt? := by
  obtain ⟨-, rfl | ⟨hx, hy⟩⟩ := numEq_iff.1 h
  · rfl
  · rw [toInt?_of_magnitude_eq_zero hx, toInt?_of_magnitude_eq_zero hy]

/-- An integer that a float is, and the float nearest to it. -/
theorem toInt?_ofInt {n : Int} (h : x.toInt? = some n) : (ofInt n).toInt? = some n := by
  by_cases hn : n = 0
  · rw [hn]
    exact toInt?_of_magnitude_eq_zero (magnitude_ofInt_eq_zero.2 rfl)
  · rwa [ofInt_of_toInt? hn h]

end Binary64

end ObjectBridge
