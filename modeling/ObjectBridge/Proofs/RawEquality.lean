import ObjectBridge.Proofs.Rounding

/-!
# Raw equality and table keys

A value that addresses an entry of a table, `Value.Keyed`, has a key: numbers that are integers of
scripts are turned into these integers exactly. Raw equality compares an integer with a float after
rounding the integer to a float. The two agree (`Value.rawEqual_iff`) except for an integer that no
float is, `Value.Inexact`: it equals the float it is rounded to and has another key
(`Value.Blurs.key?_ne`). Raw equality is therefore not transitive (`Value.not_rawEqual_keys`), but it
is between other values (`Value.rawEqual_trans`).
-/

namespace ObjectBridge

namespace Value

variable {u v w : Value}

/-! ### Keys -/

/-- A value that addresses an entry of a table: it is neither nil nor not a number. -/
def Keyed : Value → Prop
  | nil => False
  | number x => x.isNaN = false
  | _ => True

/-- An integer that no float is. -/
def Inexact : Value → Prop
  | integer i => ∀ x : Binary64, x.toInt? ≠ some i.toInt
  | _ => False

/-- An integer that no float is, and the float that it is rounded to. -/
def Blurs (v w : Value) : Prop :=
  v.Inexact ∧ ∃ i, v = integer i ∧ w = number (Binary64.ofInt i.toInt)

theorem isSome_key? : v.key?.isSome = true ↔ v.Keyed := by
  cases v with
  | number x =>
    rw [key?, Keyed]
    cases hx : x.isNaN with
    | true => simp
    | false => cases hi : x.toInt64? <;> simp
  | _ => simp [key?, Keyed]

/-- **An integer meets a float as the float nearest to it.** -/
theorem numEq_ofInt_iff {i : Int64} {x : Binary64} : (Binary64.ofInt i.toInt).numEq x = true ↔
    x.toInt? = some i.toInt ∨ (integer i).Blurs (number x) := by
  constructor
  · intro h
    by_cases hexact : ∃ y : Binary64, y.toInt? = some i.toInt
    · obtain ⟨y, hy⟩ := hexact
      rw [← Binary64.toInt?_eq_of_numEq h]
      exact Or.inl (Binary64.toInt?_ofInt hy)
    · have hinexact : (integer i).Inexact := fun y hy ↦ hexact ⟨y, hy⟩
      obtain ⟨-, rfl | ⟨hzero, -⟩⟩ := Binary64.numEq_iff.1 h
      · exact Or.inr ⟨hinexact, i, rfl, rfl⟩
      · rw [Binary64.magnitude_ofInt_eq_zero] at hzero
        rw [hzero] at hexact
        exact absurd ⟨⟨0⟩, Binary64.toInt?_of_magnitude_eq_zero (by decide)⟩ hexact
  · rintro (h | ⟨-, j, hj, hx⟩)
    · exact Binary64.numEq_of_toInt? (Binary64.toInt?_ofInt h) h
    · obtain rfl := Value.integer.inj hj
      obtain rfl := Value.number.inj hx
      exact Binary64.numEq_iff.2 ⟨⟨Binary64.isNaN_ofInt _, Binary64.isNaN_ofInt _⟩, Or.inl rfl⟩

theorem key?_integer_eq_number_iff {i : Int64} {x : Binary64} (hx : x.isNaN = false) :
    (integer i).key? = (number x).key? ↔ x.toInt? = some i.toInt := by
  rw [← Binary64.toInt64?_eq_some_iff, key?, key?, hx]
  cases h : x.toInt64? with
  | none => simp
  | some j => simp [Int64.toInt_inj, eq_comm]

theorem key?_number_eq_number_iff {x y : Binary64} (hx : x.isNaN = false) (hy : y.isNaN = false) :
    (number x).key? = (number y).key? ↔ x.numEq y = true := by
  rw [key?, key?, hx, hy]
  constructor
  · intro h
    cases hi : x.toInt64? with
    | none =>
      cases hj : y.toInt64? with
      | none =>
        simp only [hi, hj, Bool.false_eq_true, if_false, Option.some.injEq, Key.number.injEq] at h
        exact Binary64.numEq_iff.2 ⟨⟨hx, hy⟩, Or.inl h⟩
      | some j => simp [hi, hj] at h
    | some i =>
      cases hj : y.toInt64? with
      | none => simp [hi, hj] at h
      | some j =>
        obtain rfl : i = j := by simpa [hi, hj, Int64.toInt_inj] using h
        exact Binary64.numEq_of_toInt? (Binary64.toInt64?_eq_some_iff.1 hi)
          (Binary64.toInt64?_eq_some_iff.1 hj)
  · intro h
    have hint : x.toInt64? = y.toInt64? := by
      rw [Binary64.toInt64?, Binary64.toInt64?, Binary64.toInt?_eq_of_numEq h]
    rw [hint]
    cases hj : y.toInt64? with
    | some j => rfl
    | none =>
      obtain ⟨-, rfl | ⟨hzero, -⟩⟩ := Binary64.numEq_iff.1 h
      · rfl
      · have hx0 : x.toInt64? = some 0 :=
          Binary64.toInt64?_eq_some_iff.2 (Binary64.toInt?_of_magnitude_eq_zero hzero)
        rw [hint, hj] at hx0
        exact absurd hx0 (by simp)

theorem rawEqual_comm (v w : Value) : v.rawEqual w = w.rawEqual v := by
  cases v <;> cases w <;>
    simp only [rawEqual, same, Binary64.numEq_comm, eq_comm]

theorem kind_eq_number_iff : v.kind = .number ↔ (∃ i, v = integer i) ∨ ∃ x, v = number x := by
  cases v <;> simp [kind]

theorem Blurs.kind_eq (h : v.Blurs w) : v.kind = .number ∧ w.kind = .number := by
  obtain ⟨-, i, rfl, rfl⟩ := h
  exact ⟨rfl, rfl⟩

/-- The key of a value that is no number tells the value. -/
theorem key?_eq_iff_of_kind (hv : v.Keyed) (hkind : v.kind ≠ .number) : v.key? = w.key? ↔ v = w := by
  refine ⟨fun h ↦ ?_, fun h ↦ h ▸ rfl⟩
  cases w with
  | number x =>
    cases hx : x.isNaN <;> cases hi : x.toInt64? <;> cases v <;> simp_all [key?, Keyed, kind]
  | _ => cases v <;> simp_all [key?, Keyed, kind]

theorem rawEqual_iff_eq_of_kind (hkind : v.kind ≠ .number) : v.rawEqual w = true ↔ v = w := by
  cases v <;> simp_all [rawEqual, same, kind]

/-- **Raw equality is equality of keys**, except that an integer that no float is equals the float that it
is rounded to. -/
theorem rawEqual_iff (hv : v.Keyed) (hw : w.Keyed) :
    v.rawEqual w = true ↔ v.key? = w.key? ∨ v.Blurs w ∨ w.Blurs v := by
  by_cases hkinds : v.kind = .number ∧ w.kind = .number
  · obtain ⟨hnumber, hnumber'⟩ := hkinds
    obtain ⟨i, rfl⟩ | ⟨x, rfl⟩ := kind_eq_number_iff.1 hnumber <;>
      obtain ⟨j, rfl⟩ | ⟨y, rfl⟩ := kind_eq_number_iff.1 hnumber'
    · simp [rawEqual, same, key?, Blurs, Int64.toInt_inj]
    · have hno : ¬ (number y).Blurs (integer i) := fun h ↦ h.1
      rw [rawEqual, numEq_ofInt_iff, key?_integer_eq_number_iff hw, or_iff_left hno]
    · have hno : ¬ (number x).Blurs (integer j) := fun h ↦ h.1
      rw [rawEqual, numEq_ofInt_iff, ← key?_integer_eq_number_iff hv, or_iff_right hno, eq_comm]
    · have hsame : (number x).rawEqual (number y) = x.numEq y := rfl
      rw [hsame, key?_number_eq_number_iff hv hw]
      simp [Blurs, Inexact]
  · have hno : ¬ (v.Blurs w ∨ w.Blurs v) := by
      rintro (h | h)
      · exact hkinds h.kind_eq
      · exact hkinds h.kind_eq.symm
    rw [or_iff_left hno]
    rcases not_and_or.1 hkinds with hv' | hw'
    · rw [rawEqual_iff_eq_of_kind hv', key?_eq_iff_of_kind hv hv']
    · rw [rawEqual_comm, rawEqual_iff_eq_of_kind hw', eq_comm (a := v.key?), key?_eq_iff_of_kind hw hw']

/-- The key of an integer that no float is tells the value. -/
theorem eq_of_key?_of_inexact (hv : v.Keyed) (hw : w.Inexact) (h : v.key? = w.key?) : v = w := by
  cases w with
  | integer i =>
    by_cases hkind : v.kind = .number
    · obtain ⟨j, rfl⟩ | ⟨x, rfl⟩ := kind_eq_number_iff.1 hkind
      · simpa [key?, Int64.toInt_inj] using h
      · exact absurd ((key?_integer_eq_number_iff hv).1 h.symm) (hw x)
    · exact (key?_eq_iff_of_kind hv hkind).1 h
  | _ => exact hw.elim

theorem Blurs.key?_ne (h : v.Blurs w) : v.key? ≠ w.key? := by
  obtain ⟨hinexact, i, rfl, rfl⟩ := h
  intro heq
  exact hinexact _ ((key?_integer_eq_number_iff (Binary64.isNaN_ofInt _)).1 heq)

/-- Equality is handed on between values that are no integers that no float is. -/
theorem rawEqual_trans (hu : u.Keyed) (hv : v.Keyed) (hw : w.Keyed) (hexact : ¬ u.Inexact)
    (hexact' : ¬ w.Inexact) (huv : u.rawEqual v = true) (hvw : v.rawEqual w = true) :
    u.rawEqual w = true := by
  refine (rawEqual_iff hu hw).2 (Or.inl ?_)
  rcases (rawEqual_iff hu hv).1 huv with hkey | hblurs | hblurs
  · rcases (rawEqual_iff hv hw).1 hvw with hkey' | hblurs' | hblurs'
    · exact hkey.trans hkey'
    · exact absurd (eq_of_key?_of_inexact hu hblurs'.1 hkey ▸ hblurs'.1) hexact
    · exact absurd hblurs'.1 hexact'
  · exact absurd hblurs.1 hexact
  · rcases (rawEqual_iff hv hw).1 hvw with hkey' | hblurs' | hblurs'
    · exact absurd (eq_of_key?_of_inexact hw hblurs.1 hkey'.symm ▸ hblurs.1) hexact'
    · -- both are the float that the integer is rounded to
      obtain ⟨-, i, hi, rfl⟩ := hblurs
      obtain ⟨-, j, hj, rfl⟩ := hblurs'
      rw [Value.integer.inj (hi.symm.trans hj)]
    · exact absurd hblurs'.1 hexact'

/-- **Raw equality agrees with table keys**, but for the integers that no float is. The values that
address entries of a table are those with a key. Two of them are equal if they address the same entry,
and else only if one is an integer that no float is and the other the float that it is rounded to.
Equality is symmetric, and it is transitive between values that are no such integers; integers up to
`2 ^ 53` are none. -/
theorem rawEqual_agrees (u v w : Value) :
    (v.key?.isSome = true ↔ v.Keyed) ∧
    (v.Keyed → w.Keyed → (v.rawEqual w = true ↔ v.key? = w.key? ∨ v.Blurs w ∨ w.Blurs v)) ∧
    (v.Blurs w → v.key? ≠ w.key?) ∧
    v.rawEqual w = w.rawEqual v ∧
    (u.Keyed → v.Keyed → w.Keyed → ¬ u.Inexact → ¬ w.Inexact →
      u.rawEqual v = true → v.rawEqual w = true → u.rawEqual w = true) ∧
    ∀ i : Int64, v = integer i → i.toInt.natAbs ≤ 2 ^ 53 → ¬ v.Inexact := by
  refine ⟨isSome_key?, rawEqual_iff, Blurs.key?_ne, rawEqual_comm v w, rawEqual_trans, ?_⟩
  rintro i rfl hi hinexact
  obtain ⟨x, hx⟩ := Binary64.exists_toInt?_eq hi
  exact hinexact x hx

/-- The least integer is a float. -/
theorem rawEqual_agrees_least :
    (integer Int64.minValue).key? = (number ⟨0xc3e0000000000000⟩).key? ∧
      (integer Int64.minValue).rawEqual (number ⟨0xc3e0000000000000⟩) = true := by
  have hkeys : (integer Int64.minValue).key? = (number ⟨0xc3e0000000000000⟩).key? := by decide
  have hleast : (integer Int64.minValue).Keyed := trivial
  have hfloat : (number ⟨0xc3e0000000000000⟩).Keyed := show Binary64.isNaN _ = false by decide
  exact ⟨hkeys, ((rawEqual_agrees .nil _ _).2.1 hleast hfloat).2 (Or.inl hkeys)⟩

/-- **Equal values with different keys**: the integer after `2 ^ 53` equals the float `2 ^ 53`, as does
the integer `2 ^ 53`, although the two integers differ. -/
theorem not_rawEqual_keys :
    ((integer 9007199254740993).rawEqual (number ⟨0x4340000000000000⟩) = true ∧
      (integer 9007199254740993).key? ≠ (number ⟨0x4340000000000000⟩).key?) ∧
    (number ⟨0x4340000000000000⟩).rawEqual (integer 9007199254740992) = true ∧
      (integer 9007199254740993).rawEqual (integer 9007199254740992) = false := by
  decide

end Value
end ObjectBridge
