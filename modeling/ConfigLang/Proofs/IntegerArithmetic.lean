import ConfigLang.Expr.Arithmetic
import Mathlib

set_option autoImplicit false

/-! # Arithmetic on integers of 64 bits

Sums, differences and products of integers are exact or become floats. A remainder is computed on 64
bits throughout: the machine gives the one of a truncated division, the divisor is added where that
has the wrong sign, and this addition never leaves the range. Main statement: what every pair of
integers gives (`integerArithmetic`). -/

namespace ConfigLang.Expr

/-! ## Remainders -/

namespace Numeric

variable {m n r : Int64}

/-- The remainder of a floored division is the one of the truncated division, or lies one divisor
    away if that has the wrong sign. -/
theorem fmod_eq_ite_tmod (a : ℤ) {b : ℤ} (hb : b ≠ 0) :
    a.fmod b = if a.tmod b ≠ 0 ∧ (a.tmod b < 0 ↔ 0 < b) then a.tmod b + b else a.tmod b := by
  have hnonneg := Int.emod_nonneg a hb
  have hlt := Int.emod_lt a hb
  rw [Int.tmod_eq_emod, Int.fmod_eq_emod]
  simp only [Int.dvd_iff_emod_eq_zero]
  by_cases hdvd : a % b = 0
  · simp [hdvd]
  · split_ifs <;> omega

theorem toInt_eq_zero_iff : n.toInt = 0 ↔ n = 0 := by
  rw [← Int64.toInt_zero, Int64.toInt_inj]

theorem isAcross_iff (hn : n ≠ 0) :
    isAcross r n = true ↔ r.toInt ≠ 0 ∧ (r.toInt < 0 ↔ 0 < n.toInt) := by
  have hne : n.toInt ≠ 0 := mt toInt_eq_zero_iff.mp hn
  have hsides : ¬ (r.toInt < 0 ↔ n.toInt < 0) ↔ (r.toInt < 0 ↔ 0 < n.toInt) := by
    by_cases hr : r.toInt < 0 <;> simp only [hr, true_iff, false_iff] <;> omega
  simp only [isAcross, bne_iff_ne, Bool.and_eq_true, ne_eq, decide_eq_decide, toInt_eq_zero_iff,
    Int64.lt_iff_toInt_lt, Int64.toInt_zero, hsides]

/-- Integers on different sides of zero have a sum of 64 bits. -/
theorem toInt_add_of_isAcross (hn : n ≠ 0) (h : isAcross r n = true) :
    (r + n).toInt = r.toInt + n.toInt := by
  have hsides := (isAcross_iff hn).mp h
  have hlow := And.intro r.le_toInt n.le_toInt
  have hhigh := And.intro r.toInt_lt n.toInt_lt
  rw [Int64.toInt_add]
  exact Int.bmod_eq_of_le (by omega) (by omega)

theorem toInt_truncatedRemainder? (h : truncatedRemainder? m n = some r) :
    r.toInt = m.toInt.tmod n.toInt := by
  unfold truncatedRemainder? at h
  split at h
  · exact absurd h (by simp)
  · rw [← Option.some.inj h, Int64.toInt_mod]

theorem toInt_flooredRemainder (hn : n ≠ 0) :
    (flooredRemainder m n).toInt = m.toInt.fmod n.toInt := by
  have hfmod := fmod_eq_ite_tmod m.toInt (mt toInt_eq_zero_iff.mp hn)
  unfold flooredRemainder
  split
  next r hr =>
    rw [← toInt_truncatedRemainder? hr] at hfmod
    rw [hfmod]
    split
    next hacross =>
      rw [toInt_add_of_isAcross hn hacross, if_pos ((isAcross_iff hn).mp hacross)]
    next hacross => rw [if_neg fun h => hacross ((isAcross_iff hn).mpr h)]
  next hnone =>
    unfold truncatedRemainder? at hnone
    split at hnone
    next hout =>
      -- minus one divides the least integer
      obtain ⟨rfl, rfl⟩ := hout.resolve_left hn
      decide
    next => exact absurd hnone (by simp)

end Numeric

/-! ## Operators -/

/-- Whether an integer is one of 64 bits. -/
def Fits64 (n : ℤ) : Prop :=
  -2 ^ 63 ≤ n ∧ n < 2 ^ 63

theorem exists_int64?_of_fits64 {n : ℤ} (h : Fits64 n) :
    ∃ r : Int64, r.toInt = n ∧ Number.int64? n = some r :=
  ⟨Int64.ofInt n, Int64.toInt_ofInt_of_le h.1 h.2, if_pos h⟩

/-- What an operator does on integers of any size, division and remainder aside. -/
def onIntegers? : Operator → Option (ℤ → ℤ → ℤ)
  | .add => some (· + ·)
  | .sub => some (· - ·)
  | .mul => some (· * ·)
  | .div => none
  | .rem => none

section

variable {op : Operator} {onInts : ℤ → ℤ → ℤ} {m n : Int64}

theorem apply_int_int (op : Operator) (m n : Int64) :
    apply op (.int m) (.int n) = compute op (.int m) (.int n) := by
  rw [apply, if_neg]
  simp [isString]

theorem exists_combine (h : onIntegers? op = some onInts) (m n : Int64) :
    ∃ onFloats, apply op (.int m) (.int n)
      = .ok (Numeric.combine onInts onFloats (.int m) (.int n)).toValue := by
  rw [apply_int_int]
  cases op with
  | add => exact ⟨(· + ·), by rw [← Option.some.inj h]; rfl⟩
  | sub => exact ⟨(· - ·), by rw [← Option.some.inj h]; rfl⟩
  | mul => exact ⟨(· * ·), by rw [← Option.some.inj h]; rfl⟩
  | div => exact absurd h (by simp [onIntegers?])
  | rem => exact absurd h (by simp [onIntegers?])

theorem apply_of_fits64 (h : onIntegers? op = some onInts)
    (hfits : Fits64 (onInts m.toInt n.toInt)) :
    ∃ r : Int64, r.toInt = onInts m.toInt n.toInt ∧ apply op (.int m) (.int n) = .ok (.int r) := by
  obtain ⟨onFloats, happly⟩ := exists_combine h m n
  obtain ⟨r, hr, hint⟩ := exists_int64?_of_fits64 hfits
  exact ⟨r, hr, by rw [happly, Numeric.combine, hint]; rfl⟩

theorem apply_of_not_fits64 (h : onIntegers? op = some onInts)
    (hfits : ¬ Fits64 (onInts m.toInt n.toInt)) :
    ∃ x, apply op (.int m) (.int n) = .ok (.float x) := by
  obtain ⟨onFloats, happly⟩ := exists_combine h m n
  have hnone : Number.int64? (onInts m.toInt n.toInt) = none := if_neg hfits
  exact ⟨_, by rw [happly, Numeric.combine, hnone]; rfl⟩

theorem isZero_int_iff : (Numeric.int n).isZero = true ↔ n = 0 := by
  rw [Numeric.isZero, beq_iff_eq]

theorem compute_div_int (m n : Int64) :
    compute .div (.int m) (.int n)
      = if (Numeric.int n).isZero then .error (.mistyped (.divisionByZero (.int m) (.int n)))
        else .ok (.float ((Numeric.int m).toFloat / (Numeric.int n).toFloat)) :=
  rfl

theorem compute_rem_int (m n : Int64) :
    compute .rem (.int m) (.int n)
      = if (Numeric.int n).isZero then .error (.mistyped (.moduloByZero (.int m) (.int n)))
        else .ok (.int (Numeric.flooredRemainder m n)) :=
  rfl

theorem exists_mistyped_ite_iff {zero : Prop} [Decidable zero] {cause : Mistyped} {v : Value} :
    (∃ given, (if zero then Except.error (Fault.mistyped cause) else .ok v)
      = .error (.mistyped given)) ↔ zero := by
  split
  next hzero => exact iff_of_true ⟨cause, rfl⟩ hzero
  next hzero => exact iff_of_false (fun ⟨_, heq⟩ => absurd heq (by simp)) hzero

/-- Only a divisor of zero leaves no quotient and no remainder. -/
theorem exists_mistyped_iff (h : onIntegers? op = none) (m n : Int64) :
    (∃ cause, apply op (.int m) (.int n) = .error (.mistyped cause)) ↔ n = 0 := by
  rw [apply_int_int, ← isZero_int_iff]
  cases op with
  | div =>
    rw [compute_div_int]
    exact exists_mistyped_ite_iff
  | rem =>
    rw [compute_rem_int]
    exact exists_mistyped_ite_iff
  | _ => exact absurd h (by simp [onIntegers?])

end

/-! ## All results -/

/-- The quotient of a remainder that is taken is one of 64 bits. -/
theorem fits64_tdiv {m n r : Int64} (h : Numeric.truncatedRemainder? m n = some r) :
    Fits64 (m.toInt.tdiv n.toInt) := by
  have hm := And.intro m.le_toInt m.toInt_lt
  unfold Numeric.truncatedRemainder? at h
  split at h
  · exact absurd h (by simp)
  next hin =>
    rw [not_or, not_and, ← Int64.toInt_inj, ← Int64.toInt_inj, ← Int64.toInt_inj, Int64.toInt_zero,
      Int64.toInt_minValue, Int64.toInt_neg, Int64.toInt_one] at hin
    obtain ⟨hzero, hleast⟩ := hin
    rw [Fits64]
    rcases le_or_gt 2 n.toInt.natAbs with htwo | hone
    · have hquotient : (m.toInt.tdiv n.toInt).natAbs ≤ m.toInt.natAbs / 2 := by
        rw [Int.natAbs_tdiv]
        exact Nat.div_le_div_left htwo (by decide)
      omega
    · have hunit : n.toInt = 1 ∨ n.toInt = -1 := by omega
      rcases hunit with hn | hn
      · rw [hn, Int.tdiv_one]
        exact hm
      · have hne : m.toInt ≠ -2 ^ 63 := fun heq => hleast heq (by rw [hn]; rfl)
        rw [hn, Int.tdiv_neg, Int.tdiv_one]
        omega

/-- What arithmetic gives for two integers. -/
structure IntegerArithmetic (m n : Int64) : Prop where
  /-- A sum, difference or product that fits is exact. -/
  exact_of_fits : ∀ op onInts, onIntegers? op = some onInts → Fits64 (onInts m.toInt n.toInt) →
    ∃ r : Int64, r.toInt = onInts m.toInt n.toInt ∧ apply op (.int m) (.int n) = .ok (.int r)
  float_of_not_fits : ∀ op onInts, onIntegers? op = some onInts →
    ¬ Fits64 (onInts m.toInt n.toInt) → ∃ x, apply op (.int m) (.int n) = .ok (.float x)
  /-- A remainder is what is left of the floored quotient. -/
  remainder : n ≠ 0 → ∃ r : Int64, r.toInt = m.toInt - n.toInt * m.toInt.fdiv n.toInt
    ∧ apply .rem (.int m) (.int n) = .ok (.int r)
  /-- The division and the addition that a remainder takes stay in the range of 64 bits. -/
  remainder_fits : n ≠ 0 → ∀ r, Numeric.truncatedRemainder? m n = some r →
    Fits64 (m.toInt.tdiv n.toInt)
      ∧ (Numeric.isAcross r n = true → Fits64 (r.toInt + n.toInt))
  mistyped_iff : ∀ op, onIntegers? op = none →
    ((∃ cause, apply op (.int m) (.int n) = .error (.mistyped cause)) ↔ n = 0)
  negative : m ≠ Int64.minValue → ∃ r : Int64, r.toInt = -m.toInt ∧ negate (.int m) = .ok (.int r)
  negative_least : m = Int64.minValue → ∃ x, negate (.int m) = .ok (.float x)

theorem integerArithmetic (m n : Int64) : IntegerArithmetic m n where
  exact_of_fits _ _ := apply_of_fits64
  float_of_not_fits _ _ := apply_of_not_fits64
  remainder hn := by
    refine ⟨Numeric.flooredRemainder m n, ?_, ?_⟩
    · rw [Numeric.toInt_flooredRemainder hn, Int.fmod_def]
    · rw [apply_int_int, compute_rem_int, if_neg (mt isZero_int_iff.mp hn)]
  remainder_fits hn r hr := by
    refine ⟨fits64_tdiv hr, fun hacross => ?_⟩
    rw [← Numeric.toInt_add_of_isAcross hn hacross]
    exact ⟨Int64.le_toInt _, Int64.toInt_lt _⟩
  mistyped_iff _ hop := exists_mistyped_iff hop m n
  negative hm := by
    have hlow := m.le_toInt
    have hhigh := m.toInt_lt
    have hne : m.toInt ≠ -2 ^ 63 := by rwa [← Int64.toInt_minValue, Ne, Int64.toInt_inj]
    obtain ⟨r, hr, hint⟩ := @exists_int64?_of_fits64 (-m.toInt) ⟨by omega, by omega⟩
    refine ⟨r, hr, ?_⟩
    show Except.ok (Numeric.negate (.int m)).toValue = _
    rw [Numeric.negate, hint]
    rfl
  negative_least hm := by
    rw [hm]
    exact ⟨_, rfl⟩

end ConfigLang.Expr
