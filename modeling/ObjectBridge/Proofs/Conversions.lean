import Mathlib.Algebra.Order.Field.Rat
import Mathlib.Algebra.Order.Field.Power
import Mathlib.Tactic.Linarith
import Mathlib.Tactic.Positivity
import ObjectBridge.Proofs.MapWalks

/-!
# Conversions lose nothing

A scalar of the host that is pushed as a script value reads as the same scalar, for all types but
the narrow floats and optional types of optional types (`ScalarType.read_of_write`). Only integers
beyond those of scripts are refused, and then nothing has changed.

Reading an integer looks at the exact value of a number, `Value.rational?`: it succeeds when the
value is an integer, of the range of the type and of the integers of scripts, and reads it exactly
(`IntKind.read_eq_ok_iff`). For all but the two widest unsigned types the second range contains the
first; a float from `2 ^ 63` upwards is no value of those (`IntKind.read_beyond`).
-/

namespace ObjectBridge

/-! ### Exact values -/

namespace Binary64

/-- The rational that a finite number is. -/
def value (x : Binary64) : ℚ :=
  (if x.negative then -1 else 1) * (x.significand * 2 ^ x.exponent)

/-- A multiple of a power of two is a whole number if the power is, or divides the factor. -/
theorem whole_eq_some_iff (s : Nat) (e : Int) (m : Nat) :
    (if 0 ≤ e then some (s * Nat.pow 2 e.toNat)
      else if s % Nat.pow 2 (-e).toNat = 0 then some (s / Nat.pow 2 (-e).toNat)
      else none) = some m ↔ (s * 2 ^ e : ℚ) = m := by
  by_cases he : 0 ≤ e
  · obtain ⟨k, rfl⟩ := Int.eq_ofNat_of_zero_le he
    rw [if_pos he, Option.some.injEq, Int.toNat_natCast, zpow_natCast]
    norm_cast
  · obtain ⟨k, hk⟩ := Int.eq_ofNat_of_zero_le (Int.le_of_lt (Int.neg_pos_of_neg (not_le.1 he)))
    obtain rfl : e = -(k : Int) := by omega
    have hpos : 0 < 2 ^ k := Nat.two_pow_pos k
    have hrat : (s * 2 ^ (-(k : Int)) : ℚ) = m ↔ s = m * 2 ^ k := by
      rw [zpow_neg, zpow_natCast, mul_inv_eq_iff_eq_mul₀ (by positivity)]
      norm_cast
    rw [if_neg he, hrat, Int.neg_neg, Int.toNat_natCast]
    change (if s % 2 ^ k = 0 then some (s / 2 ^ k) else none) = some m ↔ s = m * 2 ^ k
    constructor
    · intro h
      split at h
      · rename_i hmod
        rw [← Option.some.inj h, Nat.div_mul_cancel (Nat.dvd_of_mod_eq_zero hmod)]
      · exact absurd h (by simp)
    · rintro rfl
      rw [if_pos (Nat.mul_mod_left m _), Nat.mul_div_cancel m hpos]

/-- **The integer that a number is found to be is the number.** -/
theorem toInt?_eq_some_iff {x : Binary64} {n : Int} :
    x.toInt? = some n ↔ x.isFinite = true ∧ x.value = n := by
  rw [toInt?]
  split
  · rename_i hfinite
    simp only [Option.map_eq_some_iff, Option.bind_eq_bind, Option.bind_eq_some_iff, Option.pure_def,
      Option.some.injEq, whole_eq_some_iff, hfinite, true_and, value]
    constructor
    · rintro ⟨_, ⟨m, hm, rfl⟩, rfl⟩
      rw [hm]
      split <;> simp
    · intro h
      -- what is left without the sign is not negative, so it is a natural number
      have hnonneg : (0 : ℚ) ≤ x.significand * 2 ^ x.exponent :=
        mul_nonneg (Nat.cast_nonneg _) (zpow_nonneg (by decide) _)
      have habs : (x.significand * 2 ^ x.exponent : ℚ) = n.natAbs := by
        rw [Nat.cast_natAbs, Int.cast_abs, ← h]
        split <;> simp [abs_of_nonneg hnonneg]
      refine ⟨n.natAbs, ⟨n.natAbs, habs, rfl⟩, ?_⟩
      split at h
      · have hn : n ≤ 0 := by
          rw [← Int.cast_nonpos (R := ℚ), ← h]
          linarith
        rw [if_pos ‹_›]
        omega
      · have hn : 0 ≤ n := by
          rw [← Int.cast_nonneg_iff (R := ℚ), ← h]
          linarith
        rw [if_neg ‹_›]
        omega
  · rename_i hfinite
    simp [hfinite]

end Binary64

/-- The integers of scripts are kept as they are. -/
theorem toInt_ofInt_of_between {n : Int} (hlow : Int64.minValue.toInt ≤ n)
    (hhigh : n ≤ Int64.maxValue.toInt) : (Int64.ofInt n).toInt = n := by
  rw [Int64.toInt_maxValue] at hhigh
  exact Int64.toInt_ofInt_of_le hlow (by omega)

theorem Binary64.toInt64?_eq_some_iff {x : Binary64} {i : Int64} :
    x.toInt64? = some i ↔ x.toInt? = some i.toInt := by
  rw [toInt64?]
  constructor
  · intro h
    split at h
    · rename_i n hn
      split at h
      · rename_i hrange
        rw [hn, ← Option.some.inj h, toInt_ofInt_of_between hrange.1 hrange.2]
      · exact absurd h (by simp)
    · exact absurd h (by simp)
  · intro h
    have hrange : Int64.minValue.toInt ≤ i.toInt ∧ i.toInt ≤ Int64.maxValue.toInt :=
      ⟨i.minValue_le_toInt, i.toInt_le⟩
    simp only [h, if_pos hrange, Int64.ofInt_toInt]

/-- The exact value of a number of scripts. -/
def Value.rational? : Value → Option ℚ
  | integer i => some i.toInt
  | number x => if x.isFinite then some x.value else none
  | _ => none

/-- **A value stands for an integer if that is its exact value.** -/
theorem Value.integer?_eq_some_iff {v : Value} {i : Int64} :
    v.integer? = some i ↔ v.rational? = some (i.toInt : ℚ) := by
  cases v with
  | integer j => simp [integer?, rational?, Int64.toInt_inj]
  | number x =>
    rw [integer?, Binary64.toInt64?_eq_some_iff, Binary64.toInt?_eq_some_iff, rational?]
    split <;> simp_all
  | _ => simp [integer?, rational?]

/-! ### Reading integers -/

namespace IntKind

variable {k : IntKind} {n : Int}

theorem minValue_le_of_contains (h : k.contains n = true) : Int64.minValue.toInt ≤ n := by
  rw [contains, Bool.and_eq_true, decide_eq_true_eq] at h
  refine le_trans ?_ h.1
  cases k <;> decide

/-- All but the two widest unsigned types are within the integers of scripts. -/
theorem le_maxValue_of_contains (hu64 : k ≠ .u64) (husize : k ≠ .usize) (h : k.contains n = true) :
    n ≤ Int64.maxValue.toInt := by
  rw [contains, Bool.and_eq_true, decide_eq_true_eq, decide_eq_true_eq] at h
  have hhigh : k.high ≤ Int64.maxValue.toInt + 1 := by
    cases k <;> first | decide | contradiction
  omega

/-- **An integer is read exactly**: from a number whose exact value is an integer of the type and of
scripts. -/
theorem read_eq_ok_iff {v : Value} {d : Datum} :
    k.read v = .ok d ↔ ∃ n : Int, v.rational? = some (n : ℚ) ∧ k.contains n = true ∧
      n ≤ Int64.maxValue.toInt ∧ d = .int n := by
  unfold IntKind.read
  constructor
  · intro h
    cases hi : v.integer? with
    | some i =>
      rw [hi] at h
      dsimp only at h
      split at h
      · rename_i hcontains
        exact ⟨i.toInt, Value.integer?_eq_some_iff.1 hi, hcontains, i.toInt_le,
          (Except.ok.inj h).symm⟩
      · exact absurd h (by simp)
    | none =>
      rw [hi] at h
      cases v <;> exact absurd h (by simp)
  · rintro ⟨n, hv, hcontains, hle, rfl⟩
    have hn := toInt_ofInt_of_between (minValue_le_of_contains hcontains) hle
    have hi : v.integer? = some (Int64.ofInt n) := by
      rw [Value.integer?_eq_some_iff, hn, hv]
    simp only [hi, hn, hcontains, if_true]

end IntKind

/-! ### Writing and reading back -/

/-- An integer, perhaps as an optional value, that is no integer of scripts. -/
def Datum.Beyond : Datum → Prop
  | .int n => Int64.maxValue.toInt < n
  | .present d => d.Beyond
  | _ => False

namespace ScalarType

/-- The types whose values can be told from one another by scripts, the optional types aside. -/
def Faithful : ScalarType → Prop
  | .single => False
  | .optional _ => False
  | _ => True

/-- The types whose values can be told from one another by scripts. -/
def Lossless : ScalarType → Prop
  | .optional t => t.Faithful
  | t => t.Faithful

variable {t : ScalarType} {d : Datum} {v : Value} {p : Plain} {texts : Nat → Option String}

/-- A scalar is refused if it is beyond the integers of scripts, and otherwise written. -/
theorem write_cases (hd : t.Holds d) :
    (∃ n, t.write d = .error n ∧ d.Beyond) ∨ ∃ p, t.write d = .ok p ∧ ¬ d.Beyond := by
  induction t generalizing d with
  | int k =>
    cases d <;> try exact hd.elim
    rename_i n
    rw [write]
    by_cases hn : n ≤ Int64.maxValue.toInt
    · exact Or.inr ⟨_, if_pos hn, not_lt.2 hn⟩
    · exact Or.inl ⟨_, if_neg hn, not_le.1 hn⟩
  | optional t ih =>
    cases d <;> try exact hd.elim
    · exact Or.inr ⟨_, rfl, id⟩
    · exact ih hd
  | _ =>
    cases d <;> try exact hd.elim
    exact Or.inr ⟨_, rfl, id⟩

theorem read_of_write_faithful (ht : t.Faithful) (hd : t.Holds d) (hp : t.write d = .ok p)
    (hv : v.plain? texts = some p) : t.read texts v = .ok d ∧ v.isNil = false := by
  cases t with
  | single => exact ht.elim
  | optional t => exact ht.elim
  | int k =>
    cases d <;> try exact hd.elim
    rename_i n
    rw [write] at hp
    split at hp
    · rename_i hn
      obtain rfl := Except.ok.inj hp
      obtain rfl : v = .integer (Int64.ofInt n) := by
        cases v <;> simp_all [Value.plain?]
      refine ⟨IntKind.read_eq_ok_iff.2 ⟨n, ?_, hd, hn, rfl⟩, rfl⟩
      rw [Value.rational?, toInt_ofInt_of_between (IntKind.minValue_le_of_contains hd) hn]
    · exact absurd hp (by simp)
  | _ =>
    cases d <;> try exact hd.elim
    obtain rfl := Except.ok.inj hp
    cases v <;> simp_all [Value.plain?, read, readText, Value.number?, Value.isNil]

/-- **What a scalar is written as reads as the scalar.** -/
theorem read_of_write (ht : t.Lossless) (hd : t.Holds d) (hp : t.write d = .ok p)
    (hv : v.plain? texts = some p) : t.read texts v = .ok d := by
  cases t with
  | optional t =>
    cases d <;> try exact hd.elim
    · obtain rfl := Except.ok.inj hp
      have hnil : v.isNil = true := Value.plain?_eq_nil.1 hv
      rw [read, if_pos hnil]
    · obtain ⟨hread, hnil⟩ := read_of_write_faithful ht hd hp hv
      rw [read, hnil, hread]
      rfl
  | _ =>
    refine (read_of_write_faithful ?_ hd hp hv).1
    exact ht

end ScalarType

/-- **Conversions lose nothing.** Pushing a scalar fails exactly when it is an integer beyond those of
scripts, and then nothing has changed; otherwise it pushes one value, which reads as the scalar. An
integer is read exactly when the exact value is an integer of the type and of scripts; for all but the
two widest unsigned types the integers of the type are integers of scripts. -/
theorem ScalarType.conversions_lossless :
    (∀ (t : ScalarType) (d : Datum) (w : World), t.Lossless → t.Holds d →
      w.binding.machine.heap.strings.Consistent →
        Exec.Ends (Exec.pushScalar t d)
          (fun n w' ↦ ¬ d.Beyond ∧ n = 1 ∧ ∃ v strings,
            w' = { w with
              binding.machine.heap.strings := strings
              binding.machine.stack := w.binding.machine.stack.push v } ∧
            t.read strings.text? v = .ok d)
          (fun i w' ↦ d.Beyond ∧ w' = w ∧ ∃ n, i = .failure (.unrepresentable n)) w) ∧
    (∀ (k : IntKind) (texts : Nat → Option String) (v : Value) (d : Datum),
      (ScalarType.int k).read texts v = .ok d ↔ ∃ n : Int, v.rational? = some (n : ℚ) ∧
        k.contains n = true ∧ n ≤ Int64.maxValue.toInt ∧ d = .int n) ∧
    ∀ (k : IntKind) (n : Int), k ≠ .u64 → k ≠ .usize → k.contains n = true →
      n ≤ Int64.maxValue.toInt := by
  refine ⟨fun t d w ht hd hw ↦ ?_, fun k texts v d ↦ IntKind.read_eq_ok_iff,
    fun k n ↦ IntKind.le_maxValue_of_contains⟩
  refine Exec.ends_written d (fun p hp ↦ ?_) fun n hn ↦ ?_
  · obtain ⟨v, strings, hpush, -, hv, -⟩ := Machine.exists_pushPlain hw p
    rcases t.write_cases hd with ⟨n, hn, -⟩ | ⟨-, -, hwithin⟩
    · rw [hp] at hn
      cases hn
    · exact ⟨hwithin, rfl, v, strings, by rw [hpush], ScalarType.read_of_write ht hd hp hv⟩
  · rcases t.write_cases hd with ⟨-, -, hbeyond⟩ | ⟨p, hp, -⟩
    · exact ⟨hbeyond, rfl, n, rfl⟩
    · rw [hp] at hn
      cases hn

/-- A text that is not there yet, and an integer that no script has. -/
theorem ScalarType.conversions_lossless_lobby :
    (∃ v w', (Exec.pushScalar (.optional .text) (.present (.text "a"))).outcome
        (Session.lobby.run []).world = (.ok 1, w') ∧
      w'.binding.machine.stack = (Session.lobby.run []).world.binding.machine.stack.push v ∧
      (ScalarType.optional .text).read w'.binding.machine.heap.strings.text? v =
        .ok (.present (.text "a"))) ∧
    (Exec.pushScalar (.int .u64) (.int (2 ^ 63))).outcome (Session.lobby.run []).world =
      (.error (.failure (.unrepresentable ⟨.u64, 2 ^ 63⟩)), (Session.lobby.run []).world) := by
  have hstrings : (Session.lobby.run []).world.binding.machine.heap.strings.Consistent := by
    decide +kernel
  constructor
  · have hends := conversions_lossless.1 (.optional .text) (.present (.text "a")) _ trivial trivial hstrings
    have hok : ((Exec.pushScalar (.optional .text) (.present (.text "a"))).outcome
        (Session.lobby.run []).world).1 = .ok 1 := by decide +kernel
    obtain ⟨-, -, v, strings, hw', hread⟩ := hends.ok (Exec.outcome_eq_of_fst hok)
    exact ⟨v, _, Exec.outcome_eq_of_fst hok, by rw [hw'], by rw [hw']; exact hread⟩
  · have hholds : (ScalarType.int .u64).Holds (.int (2 ^ 63)) :=
      show IntKind.u64.contains (2 ^ 63) = true by decide
    have hends := conversions_lossless.1 (.int .u64) (.int (2 ^ 63)) _ trivial hholds hstrings
    have herror : ((Exec.pushScalar (.int .u64) (.int (2 ^ 63))).outcome
        (Session.lobby.run []).world).1 = .error (.failure (.unrepresentable ⟨.u64, 2 ^ 63⟩)) := by
      decide +kernel
    obtain ⟨-, hw', -⟩ := hends.error (Exec.outcome_eq_of_fst herror)
    rw [Exec.outcome_eq_of_fst herror, hw']

/-- The float `2 ^ 63` is an integer of the widest unsigned types and reads as none of them. -/
theorem IntKind.read_beyond :
    (Value.number ⟨0x43e0000000000000⟩).rational? = some ((2 ^ 63 : Int) : ℚ) ∧
      IntKind.u64.contains (2 ^ 63) = true ∧
      ∀ texts, (ScalarType.int .u64).read texts (.number ⟨0x43e0000000000000⟩) =
        .error .notIntegral := by
  refine ⟨?_, by decide, fun _ ↦ show IntKind.u64.read _ = _ by decide⟩
  have hint : (Binary64.mk 0x43e0000000000000).toInt? = some (2 ^ 63) := by decide
  obtain ⟨hfinite, hvalue⟩ := Binary64.toInt?_eq_some_iff.1 hint
  rw [Value.rational?, if_pos hfinite, hvalue]

end ObjectBridge
