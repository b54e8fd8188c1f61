import ConfigLang.Number.FloatNumeral
import ConfigLang.Proofs.FloatBits
import Mathlib.Algebra.Order.Field.Power
import Mathlib.Algebra.Order.Field.Rat
import Mathlib.Tactic.FieldSimp
import Mathlib.Tactic.Linarith
import Mathlib.Tactic.NormNum
import Mathlib.Tactic.Positivity
import Mathlib.Tactic.Ring

set_option autoImplicit false

/-! # Rounding to the nearest float

The rationals that round to a magnitude form the interval that writing a float looks for decimals in
(`roundsTo_iff`), and reading rounds every rational of the interval to the magnitude
(`nearest_of_rounds`, `nearestDecimal_of_rounds`). So a decimal that writing has chosen reads back
as the float. -/

namespace ConfigLang.Number

/-! ## Values of magnitudes and decimals -/

def Magnitude.value (x : Magnitude) : ℚ :=
  x.mantissa * 2 ^ x.exponent

def Decimal.value (d : Decimal) : ℚ :=
  d.digits * 10 ^ d.exponent

theorem zpow_eq_div (a : ℚ) (k : ℤ) :
    a ^ k = a ^ k.toNat / a ^ (-k).toNat := by
  rcases Int.le_total 0 k with hk | hk
  · have hneg : (-k).toNat = 0 := by omega
    rw [hneg, pow_zero, div_one, ← zpow_natCast, Int.toNat_of_nonneg hk]
  · have hpos : k.toNat = 0 := by omega
    have hcast : ((-k).toNat : ℤ) = -k := Int.toNat_of_nonneg (by omega)
    rw [hpos, pow_zero, ← zpow_natCast a (-k).toNat, hcast, zpow_neg, one_div, inv_inv]

/-- The naturals of a cross-scaled comparison compare as the numbers do. -/
theorem crossScaled_le_iff (c : ℕ) (k : ℤ) (n : ℕ) (e : ℤ) :
    (crossScaled c k n e).1 ≤ (crossScaled c k n e).2 ↔ (c : ℚ) * 10 ^ k ≤ n * 2 ^ e := by
  have htenK : (0 : ℚ) < 10 ^ (-k).toNat := by positivity
  have htwoE : (0 : ℚ) < 2 ^ (-e).toNat := by positivity
  rw [zpow_eq_div 10, zpow_eq_div 2,
    ← mul_div_assoc, ← mul_div_assoc, div_le_div_iff₀ htenK htwoE, crossScaled]
  rw [mul_right_comm (n : ℚ)]
  exact_mod_cast Iff.rfl

theorem le_crossScaled_iff (c : ℕ) (k : ℤ) (n : ℕ) (e : ℤ) :
    (crossScaled c k n e).2 ≤ (crossScaled c k n e).1 ↔ (n : ℚ) * 2 ^ e ≤ c * 10 ^ k := by
  have htenK : (0 : ℚ) < 10 ^ (-k).toNat := by positivity
  have htwoE : (0 : ℚ) < 2 ^ (-e).toNat := by positivity
  rw [zpow_eq_div 10, zpow_eq_div 2,
    ← mul_div_assoc, ← mul_div_assoc, div_le_div_iff₀ htwoE htenK, crossScaled]
  rw [mul_right_comm (n : ℚ)]
  exact_mod_cast Iff.rfl

/-! ## The interval of a magnitude -/

/-- Whether a rational lies in the interval of `x`; its ends do exactly if the mantissa is even. -/
def BinaryFormat.Rounds (f : BinaryFormat) (x : Magnitude) (q : ℚ) : Prop :=
  if x.mantissa % 2 = 0 then
    (f.ends x).1 * 2 ^ (x.exponent - 2) ≤ q ∧ q ≤ (f.ends x).2 * 2 ^ (x.exponent - 2)
  else (f.ends x).1 * 2 ^ (x.exponent - 2) < q ∧ q < (f.ends x).2 * 2 ^ (x.exponent - 2)

theorem roundsTo_iff {f : BinaryFormat} {x : Magnitude} {c : ℕ} {k : ℤ} :
    f.roundsTo x c k = true ↔ f.Rounds x (c * 10 ^ k) := by
  have hlow := le_crossScaled_iff c k (f.ends x).1 (x.exponent - 2)
  have hhigh := crossScaled_le_iff c k (f.ends x).2 (x.exponent - 2)
  have hlow' := not_congr (crossScaled_le_iff c k (f.ends x).1 (x.exponent - 2))
  have hhigh' := not_congr (le_crossScaled_iff c k (f.ends x).2 (x.exponent - 2))
  rw [not_le, not_le] at hlow' hhigh'
  unfold BinaryFormat.roundsTo BinaryFormat.Rounds
  dsimp only
  split
  · rw [Bool.and_eq_true, decide_eq_true_iff, decide_eq_true_iff]
    exact Iff.and hlow hhigh
  · rw [Bool.and_eq_true, decide_eq_true_iff, decide_eq_true_iff]
    exact Iff.and hlow' hhigh'

/-! ## Rounding a quotient -/

theorem roundHalfEven_eq {a b n : ℕ} (hlow : 2 * (n * b) ≤ 2 * a + b)
    (hhigh : 2 * a ≤ 2 * (n * b) + b)
    (hodd : n % 2 = 1 → 2 * (n * b) < 2 * a + b ∧ 2 * a < 2 * (n * b) + b) (hb : 0 < b) :
    (if 2 * (a % b) < b ∨ 2 * (a % b) = b ∧ a / b % 2 = 0 then a / b else a / b + 1) = n := by
  have hsplit := Nat.div_add_mod a b
  have hmod := Nat.mod_lt a hb
  set d := a / b with hd
  set r := a % b with hr
  have hle : d ≤ n := by
    by_contra hlt
    have hmul : (n + 1) * b ≤ d * b := Nat.mul_le_mul_right b (by omega)
    rw [Nat.add_mul, Nat.one_mul] at hmul
    rw [Nat.mul_comm] at hsplit
    omega
  have hge : n ≤ d + 1 := by
    by_contra hlt
    have hmul : (d + 2) * b ≤ n * b := Nat.mul_le_mul_right b (by omega)
    rw [Nat.add_mul] at hmul
    rw [Nat.mul_comm] at hsplit
    omega
  rw [Nat.mul_comm] at hsplit
  rcases Nat.lt_or_ge d n with hlt | hge'
  · have hn : n = d + 1 := by omega
    have hprod : n * b = d * b + b := by rw [hn, Nat.add_mul, Nat.one_mul]
    rw [if_neg, hn]
    rintro (hsmall | ⟨htie, heven⟩)
    · omega
    · have := hodd (by omega)
      omega
  · have hn : n = d := by omega
    have hprod : n * b = d * b := by rw [hn]
    rw [if_pos, hn]
    by_cases htie : 2 * r = b
    · refine Or.inr ⟨htie, ?_⟩
      by_contra hnot
      have := hodd (by omega)
      omega
    · left
      omega

/-- A quotient within half a unit of `n` rounds to `n`, at the two ends only if `n` is even. -/
theorem roundAt_eq {num den n : ℕ} {e : ℤ} (hden : 0 < den)
    (hlow : (n : ℚ) - 1 / 2 ≤ num / den / 2 ^ e) (hhigh : (num : ℚ) / den / 2 ^ e ≤ n + 1 / 2)
    (hodd : n % 2 = 1 → (n : ℚ) - 1 / 2 < num / den / 2 ^ e ∧ (num : ℚ) / den / 2 ^ e < n + 1 / 2) :
    roundAt num den e = n := by
  have hdenQ : (0 : ℚ) < den := by exact_mod_cast hden
  set a := num * 2 ^ (-e).toNat with ha
  set b := den * 2 ^ e.toNat with hb
  have hbpos : 0 < b := by positivity
  have hbQ : (0 : ℚ) < b := by exact_mod_cast hbpos
  -- rounding divides integers, with the power of two on the side where it is one
  have hquot : (num : ℚ) / den / 2 ^ e = a / b := by
    rw [zpow_eq_div, ha, hb]
    push_cast
    field_simp
  rw [hquot] at hlow hhigh hodd
  have hlow' : ∀ {m : ℚ}, m - 1 / 2 ≤ (a : ℚ) / b ↔ 2 * (m * b) ≤ 2 * a + b := by
    intro m
    rw [le_div_iff₀ hbQ]
    constructor <;> intro h <;> linarith
  have hhigh' : ∀ {m : ℚ}, (a : ℚ) / b ≤ m + 1 / 2 ↔ 2 * (a : ℚ) ≤ 2 * (m * b) + b := by
    intro m
    rw [div_le_iff₀ hbQ]
    constructor <;> intro h <;> linarith
  have hlowLt : ∀ {m : ℚ}, m - 1 / 2 < (a : ℚ) / b ↔ 2 * (m * b) < 2 * a + b := by
    intro m
    rw [lt_div_iff₀ hbQ]
    constructor <;> intro h <;> linarith
  have hhighLt : ∀ {m : ℚ}, (a : ℚ) / b < m + 1 / 2 ↔ 2 * (a : ℚ) < 2 * (m * b) + b := by
    intro m
    rw [div_lt_iff₀ hbQ]
    constructor <;> intro h <;> linarith
  rw [hlow'] at hlow
  rw [hhigh'] at hhigh
  rw [hlowLt, hhighLt] at hodd
  exact roundHalfEven_eq (by exact_mod_cast hlow) (by exact_mod_cast hhigh)
    (fun h => ⟨by exact_mod_cast (hodd h).1, by exact_mod_cast (hodd h).2⟩) hbpos

/-! ## The exponent of a quotient -/

theorem log2_bounds {n : ℕ} (hn : 0 < n) :
    (2 : ℚ) ^ (n.log2 : ℤ) ≤ n ∧ (n : ℚ) < 2 ^ ((n.log2 : ℤ) + 1) := by
  have hlow := Nat.log2_self_le (Nat.ne_of_gt hn)
  have hhigh := Nat.lt_log2_self (n := n)
  constructor
  · rw [zpow_natCast]
    exact_mod_cast hlow
  · have hcast : ((n.log2 : ℤ) + 1) = ((n.log2 + 1 : ℕ) : ℤ) := by push_cast; ring
    rw [hcast, zpow_natCast]
    exact_mod_cast hhigh

/-- A quotient lies within a factor of two of the power that the logarithms tell. -/
theorem quotient_bounds {num den : ℕ} (hnum : 0 < num) (hden : 0 < den) :
    (2 : ℚ) ^ ((num.log2 : ℤ) - den.log2 - 1) < num / den
      ∧ (num : ℚ) / den < 2 ^ ((num.log2 : ℤ) - den.log2 + 1) := by
  obtain ⟨hnumLow, hnumHigh⟩ := log2_bounds hnum
  obtain ⟨hdenLow, hdenHigh⟩ := log2_bounds hden
  have hdenQ : (0 : ℚ) < den := by exact_mod_cast hden
  have htwo : (2 : ℚ) ≠ 0 := by norm_num
  have hpow : ∀ k : ℤ, (0 : ℚ) < 2 ^ k := fun k => by positivity
  constructor
  · rw [lt_div_iff₀ hdenQ]
    calc (2 : ℚ) ^ ((num.log2 : ℤ) - den.log2 - 1) * den
        < 2 ^ ((num.log2 : ℤ) - den.log2 - 1) * 2 ^ ((den.log2 : ℤ) + 1) :=
          mul_lt_mul_of_pos_left hdenHigh (hpow _)
      _ = 2 ^ (num.log2 : ℤ) := by rw [← zpow_add₀ htwo]; congr 1; ring
      _ ≤ num := hnumLow
  · rw [div_lt_iff₀ hdenQ]
    calc (num : ℚ) < 2 ^ ((num.log2 : ℤ) + 1) := hnumHigh
      _ = 2 ^ ((num.log2 : ℤ) - den.log2 + 1) * 2 ^ (den.log2 : ℤ) := by
          rw [← zpow_add₀ htwo]; congr 1; ring
      _ ≤ 2 ^ ((num.log2 : ℤ) - den.log2 + 1) * den :=
          mul_le_mul_of_nonneg_left hdenLow (hpow _).le

/-- The exponent of a quotient leaves a mantissa below `2 ^ precision`, and one with the leading bit
    unless the exponent is the smallest. -/
theorem exponentOf_spec (f : BinaryFormat) {num den : ℕ} (hnum : 0 < num) (hden : 0 < den) :
    f.minExponent ≤ f.exponentOf num den
      ∧ (num : ℚ) / den < 2 ^ ((f.precision : ℤ) + f.exponentOf num den)
      ∧ (f.exponentOf num den = f.minExponent
        ∨ (2 : ℚ) ^ ((f.precision : ℤ) - 1 + f.exponentOf num den) ≤ num / den) := by
  obtain ⟨hquotLow, hquotHigh⟩ := quotient_bounds hnum hden
  have hdenQ : (0 : ℚ) < den := by exact_mod_cast hden
  have hone : (1 : ℚ) < 2 := by norm_num
  set low := max f.minExponent ((num.log2 : ℤ) - den.log2 - f.precision) with hlow
  -- the test that the exponent is chosen by, over the rationals
  have hiff : num * 2 ^ (-low).toNat < 2 ^ f.precision * (den * 2 ^ low.toNat)
      ↔ (num : ℚ) / den < 2 ^ ((f.precision : ℤ) + low) := by
    have hpos : (0 : ℚ) < 2 ^ (-low).toNat := by positivity
    rw [zpow_add₀ (by norm_num), zpow_eq_div 2 low, zpow_natCast, ← mul_div_assoc,
      div_lt_div_iff₀ hdenQ hpos]
    have hcomm : (2 : ℚ) ^ f.precision * 2 ^ low.toNat * den
        = 2 ^ f.precision * (den * 2 ^ low.toNat) := by ring
    rw [hcomm]
    exact_mod_cast Iff.rfl
  have hmin : f.minExponent ≤ low := le_max_left _ _
  have hexponent : f.exponentOf num den
      = if num * 2 ^ (-low).toNat < 2 ^ f.precision * (den * 2 ^ low.toNat) then low
        else low + 1 := rfl
  rw [hexponent]
  split
  next hlt =>
    refine ⟨hmin, hiff.mp hlt, ?_⟩
    rcases le_total ((num.log2 : ℤ) - den.log2 - f.precision) f.minExponent with hsmall | hlarge
    · exact Or.inl (max_eq_left hsmall)
    · right
      have heq : low = (num.log2 : ℤ) - den.log2 - f.precision := max_eq_right hlarge
      refine le_of_eq_of_le ?_ hquotLow.le
      congr 1
      omega
  next hge =>
    have hle : (2 : ℚ) ^ ((f.precision : ℤ) + low) ≤ num / den := not_lt.mp (mt hiff.mpr hge)
    refine ⟨by omega, ?_, Or.inr ?_⟩
    · refine hquotHigh.trans_le (zpow_le_zpow_right₀ hone.le ?_)
      have := le_max_right f.minExponent ((num.log2 : ℤ) - den.log2 - f.precision)
      omega
    · refine le_of_eq_of_le ?_ hle
      congr 1
      omega

/-- There is only one such exponent. -/
theorem exponentOf_eq {f : BinaryFormat} {num den : ℕ} (hnum : 0 < num) (hden : 0 < den) {e : ℤ}
    (hmin : f.minExponent ≤ e) (hlt : (num : ℚ) / den < 2 ^ ((f.precision : ℤ) + e))
    (hle : e = f.minExponent ∨ (2 : ℚ) ^ ((f.precision : ℤ) - 1 + e) ≤ num / den) :
    f.exponentOf num den = e := by
  obtain ⟨hmin', hlt', hle'⟩ := exponentOf_spec f hnum hden
  have hone : (1 : ℚ) < 2 := by norm_num
  apply le_antisymm
  · rcases hle' with heq | hle'
    · omega
    · have := (zpow_lt_zpow_iff_right₀ hone).mp (hle'.trans_lt hlt)
      omega
  · rcases hle with heq | hle
    · omega
    · have := (zpow_lt_zpow_iff_right₀ hone).mp (hle.trans_lt hlt')
      omega

/-! ## Rounding to a magnitude -/

section

variable {x : Magnitude} {q : ℚ}

theorem two_zpow_sub_two (e : ℤ) : (2 : ℚ) ^ (e - 2) = 2 ^ e / 4 := by
  rw [zpow_sub₀ (by norm_num)]
  norm_num

theorem le_ends_fst (x : Magnitude) :
    (4 * x.mantissa : ℚ) - 2 ≤ (BinaryFormat.double.ends x).1 := by
  have hnat : 4 * x.mantissa ≤ (BinaryFormat.double.ends x).1 + 2 := by
    unfold BinaryFormat.ends
    dsimp only
    split <;> omega
  have hcast : (4 * x.mantissa : ℚ) ≤ (BinaryFormat.double.ends x).1 + 2 := by exact_mod_cast hnat
  linarith

theorem ends_fst_lt (hpos : x.mantissa ≠ 0) :
    ((BinaryFormat.double.ends x).1 : ℚ) < 4 * x.mantissa := by
  have hnat : (BinaryFormat.double.ends x).1 < 4 * x.mantissa := by
    unfold BinaryFormat.ends
    dsimp only
    split <;> omega
  exact_mod_cast hnat

theorem ends_fst_of_leading (hmantissa : x.mantissa = 2 ^ 52) (hexponent : -1074 < x.exponent) :
    ((BinaryFormat.double.ends x).1 : ℚ) = 4 * x.mantissa - 1 := by
  have hnat : (BinaryFormat.double.ends x).1 = 4 * x.mantissa - 1 := by
    unfold BinaryFormat.ends
    dsimp only
    rw [if_pos ⟨hmantissa, hexponent⟩]
  rw [hnat, Nat.cast_sub (by omega)]
  push_cast
  ring

theorem ends_snd (x : Magnitude) : ((BinaryFormat.double.ends x).2 : ℚ) = 4 * x.mantissa + 2 := by
  have hnat : (BinaryFormat.double.ends x).2 = 4 * x.mantissa + 2 := rfl
  rw [hnat]
  push_cast
  ring

/-- The interval of a magnitude, in units of its last place: half a unit to both sides, or a quarter
    below the least mantissa with the leading bit. -/
theorem rounds_bounds (h : BinaryFormat.double.Rounds x q) :
    (x.mantissa : ℚ) - 1 / 2 ≤ q / 2 ^ x.exponent ∧ q / 2 ^ x.exponent ≤ x.mantissa + 1 / 2
      ∧ (x.mantissa % 2 = 1 →
        (x.mantissa : ℚ) - 1 / 2 < q / 2 ^ x.exponent ∧ q / 2 ^ x.exponent < x.mantissa + 1 / 2)
      ∧ (x.mantissa = 2 ^ 52 → -1074 < x.exponent →
        (x.mantissa : ℚ) - 1 / 4 ≤ q / 2 ^ x.exponent) := by
  unfold BinaryFormat.Rounds at h
  rw [two_zpow_sub_two, ends_snd] at h
  set u : ℚ := 2 ^ x.exponent with hu
  have hupos : 0 < u := by positivity
  have hlow : ((4 * x.mantissa : ℚ) - 2) * (u / 4) ≤ (BinaryFormat.double.ends x).1 * (u / 4) :=
    mul_le_mul_of_nonneg_right (le_ends_fst x) (by positivity)
  have hle : (BinaryFormat.double.ends x).1 * (u / 4) ≤ q ∧ q ≤ (4 * x.mantissa + 2) * (u / 4) := by
    split at h
    · exact h
    · exact ⟨h.1.le, h.2.le⟩
  refine ⟨?_, ?_, ?_, ?_⟩
  · rw [le_div_iff₀ hupos]
    linarith [hle.1]
  · rw [div_le_iff₀ hupos]
    linarith [hle.2]
  · intro hodd
    rw [if_neg (by omega)] at h
    rw [lt_div_iff₀ hupos, div_lt_iff₀ hupos]
    exact ⟨by linarith [h.1], by linarith [h.2]⟩
  · intro hmantissa hexponent
    have hedge := hle.1
    rw [ends_fst_of_leading hmantissa hexponent] at hedge
    rw [le_div_iff₀ hupos]
    linarith

theorem nearest?_double {num den m : ℕ} {e : ℤ} (hnum : num ≠ 0)
    (he : BinaryFormat.double.exponentOf num den = e) (hm : roundAt num den e = m) :
    BinaryFormat.double.nearest? num den
      = if (if m = 2 ^ 53 then (⟨2 ^ 52, e + 1⟩ : Magnitude) else ⟨m, e⟩).exponent ≤ 971 then
          some (if m = 2 ^ 53 then ⟨2 ^ 52, e + 1⟩ else ⟨m, e⟩)
        else none := by
  have hmax : BinaryFormat.double.maxExponent = 971 := by decide
  subst he hm
  rw [BinaryFormat.nearest?, if_neg hnum, hmax]
  rfl

theorem two_zpow_precision (e : ℤ) :
    (2 : ℚ) ^ (53 + e) = 2 ^ 53 * 2 ^ e ∧ (2 : ℚ) ^ ((53 : ℤ) - 1 + e) = 2 ^ 52 * 2 ^ e := by
  constructor
  · rw [zpow_add₀ (by norm_num)]
    norm_num
  · rw [zpow_add₀ (by norm_num)]
    norm_num

/-- Below the least mantissa with the leading bit the units are half as large, and the mantissa
    rounds up to a power of two, which is carried. -/
theorem nearest?_of_below {num den : ℕ} (hnum : 0 < num) (hden : 0 < den)
    (hmantissa : x.mantissa = 2 ^ 52) (hmin : -1074 < x.exponent) (hmax : x.exponent ≤ 971)
    (hlow : (2 ^ 52 - 1 / 4 : ℚ) ≤ num / den / 2 ^ x.exponent)
    (hlt : (num : ℚ) / den < 2 ^ 52 * 2 ^ x.exponent) :
    BinaryFormat.double.nearest? num den = some x := by
  set u : ℚ := 2 ^ x.exponent with hu
  have hupos : 0 < u := by positivity
  have hhalf : (2 : ℚ) ^ (x.exponent - 1) = u / 2 := by
    rw [hu, zpow_sub₀ (by norm_num)]
    norm_num
  rw [le_div_iff₀ hupos] at hlow
  have hexponent : BinaryFormat.double.exponentOf num den = x.exponent - 1 := by
    apply exponentOf_eq hnum hden
    · show -1074 ≤ x.exponent - 1
      omega
    · show (num : ℚ) / den < 2 ^ (53 + (x.exponent - 1))
      rw [(two_zpow_precision _).1, hhalf]
      linarith
    · right
      show (2 : ℚ) ^ ((53 : ℤ) - 1 + (x.exponent - 1)) ≤ _
      rw [(two_zpow_precision _).2, hhalf]
      linarith
  have hround : roundAt num den (x.exponent - 1) = 2 ^ 53 := by
    have hhalfPos : 0 < u / 2 := by positivity
    apply roundAt_eq hden
    · rw [hhalf, le_div_iff₀ hhalfPos]
      push_cast
      linarith
    · rw [hhalf, div_le_iff₀ hhalfPos]
      push_cast
      linarith
    · intro hodd
      omega
  -- the carried mantissa is the least one with the leading bit, one exponent up
  have hcarry : x.exponent - 1 + 1 = x.exponent := by omega
  rw [nearest?_double (by omega) hexponent hround, if_pos rfl, hcarry, if_pos hmax, ← hmantissa]

theorem mantissa_bounds (hx : BinaryFormat.double.Holds x) (hpos : x.mantissa ≠ 0) :
    (1 : ℚ) ≤ x.mantissa ∧ (x.mantissa : ℚ) + 1 ≤ 2 ^ 53 := by
  obtain ⟨hmantissa, -, -, -⟩ := holds_double_iff.mp hx
  refine ⟨?_, ?_⟩
  · exact_mod_cast Nat.one_le_iff_ne_zero.mpr hpos
  · exact_mod_cast (show x.mantissa + 1 ≤ 2 ^ 53 from hmantissa)

/-- A quotient of the interval of a magnitude is rounded to it. -/
theorem nearest?_of_rounds (hx : BinaryFormat.double.Holds x) (hpos : x.mantissa ≠ 0)
    {num den : ℕ} (hden : 0 < den) (h : BinaryFormat.double.Rounds x (num / den)) :
    BinaryFormat.double.nearest? num den = some x := by
  obtain ⟨hlow, hhigh, hodd, hedge⟩ := rounds_bounds h
  obtain ⟨hmantissa, hmin, hmax, hleading⟩ := holds_double_iff.mp hx
  have hupos : (0 : ℚ) < 2 ^ x.exponent := by positivity
  obtain ⟨hmantissaLow, hmantissaHigh⟩ := mantissa_bounds hx hpos
  have hnum : 0 < num := by
    rcases Nat.eq_zero_or_pos num with hzero | hnum
    · rw [hzero, Nat.cast_zero, zero_div, zero_div] at hlow
      linarith
    · exact hnum
  by_cases hbelow : (num : ℚ) / den < 2 ^ 52 * 2 ^ x.exponent ∧ -1074 < x.exponent
  · obtain ⟨hlt, hexp⟩ := hbelow
    have hmantissaEq : x.mantissa = 2 ^ 52 := by
      have hge : 2 ^ 52 ≤ x.mantissa := hleading.resolve_right (by omega)
      have hunits : (num : ℚ) / den / 2 ^ x.exponent < 2 ^ 52 := (div_lt_iff₀ hupos).mpr hlt
      have hltQ : (x.mantissa : ℚ) < 2 ^ 52 + 1 := by linarith
      have hltNat : x.mantissa < 2 ^ 52 + 1 := by exact_mod_cast hltQ
      omega
    have hquarter := hedge hmantissaEq hexp
    have hmantissaQ : (x.mantissa : ℚ) = 2 ^ 52 := by rw [hmantissaEq]; norm_num
    rw [hmantissaQ] at hquarter
    exact nearest?_of_below hnum hden hmantissaEq hexp hmax hquarter hlt
  · have hexponent : BinaryFormat.double.exponentOf num den = x.exponent := by
      apply exponentOf_eq hnum hden hmin
      · show (num : ℚ) / den < 2 ^ (53 + x.exponent)
        rw [(two_zpow_precision _).1]
        rw [div_le_iff₀ hupos] at hhigh
        nlinarith
      · by_cases hexp : x.exponent = -1074
        · exact Or.inl hexp
        · right
          show (2 : ℚ) ^ ((53 : ℤ) - 1 + x.exponent) ≤ _
          rw [(two_zpow_precision _).2]
          by_contra hlt
          exact hbelow ⟨not_le.mp hlt, by omega⟩
    have hround := roundAt_eq hden hlow hhigh hodd
    have hne : ¬x.mantissa = 2 ^ 53 := by omega
    rw [nearest?_double (by omega) hexponent hround, if_neg hne, if_pos hmax]

end

/-! ## Rounding decimals -/

theorem lt_pow_digitCount (n : ℕ) : n < 10 ^ digitCount n :=
  (Nat.length_toDigits_le_iff (by decide) Nat.length_toDigits_pos).mp (Nat.le_refl _)

theorem pow_digitCount_le {n : ℕ} (hn : 0 < n) : 10 ^ (digitCount n - 1) ≤ n := by
  by_contra hlt
  have hpos : 0 < digitCount n - 1 := by
    by_contra hzero
    have hcount : digitCount n - 1 = 0 := by omega
    rw [hcount, pow_zero] at hlt
    omega
  have hle : digitCount n ≤ digitCount n - 1 :=
    (Nat.length_toDigits_le_iff (by decide) hpos).mpr (by omega)
  omega

/-- A decimal lies between the powers of ten that the place of its first digit tells. -/
theorem Decimal.value_bounds {d : Decimal} (hd : 0 < d.digits) :
    (10 : ℚ) ^ ((digitCount d.digits : ℤ) + d.exponent - 1) ≤ d.value
      ∧ d.value < 10 ^ ((digitCount d.digits : ℤ) + d.exponent) := by
  have hten : (10 : ℚ) ≠ 0 := by norm_num
  have hcount : 0 < digitCount d.digits := Nat.length_toDigits_pos
  have hpow : (0 : ℚ) < 10 ^ d.exponent := by positivity
  have hlow : (10 : ℚ) ^ ((digitCount d.digits : ℤ) - 1) ≤ d.digits := by
    have hcast : ((digitCount d.digits : ℤ) - 1) = ((digitCount d.digits - 1 : ℕ) : ℤ) := by omega
    rw [hcast, zpow_natCast]
    exact_mod_cast pow_digitCount_le hd
  have hhigh : (d.digits : ℚ) < 10 ^ (digitCount d.digits : ℤ) := by
    rw [zpow_natCast]
    exact_mod_cast lt_pow_digitCount d.digits
  constructor
  · have hsplit : (10 : ℚ) ^ ((digitCount d.digits : ℤ) + d.exponent - 1)
        = 10 ^ ((digitCount d.digits : ℤ) - 1) * 10 ^ d.exponent := by
      rw [← zpow_add₀ hten]
      congr 1
      ring
    rw [hsplit]
    exact mul_le_mul_of_nonneg_right hlow hpow.le
  · rw [zpow_add₀ hten]
    exact mul_lt_mul_of_pos_right hhigh hpow

theorem pow_ten_lt_least : (10 : ℚ) ^ (-331 : ℤ) < 1 / 2 * 2 ^ (-1074 : ℤ) := by
  have hnat : 2 ^ 1075 < 10 ^ 331 := by decide +kernel
  have hcast : (2 : ℚ) ^ 1075 < 10 ^ 331 := by exact_mod_cast hnat
  have hhalf : 1 / 2 * (2 : ℚ) ^ (-1074 : ℤ) = ((2 : ℚ) ^ 1075)⁻¹ := by
    rw [pow_succ, mul_inv, zpow_neg, mul_comm, one_div]
    rfl
  rw [hhalf, zpow_neg]
  exact inv_strictAnti₀ (by positivity) hcast

theorem greatest_lt_pow_ten : (2 : ℚ) ^ 53 * 2 ^ (971 : ℤ) < 10 ^ (310 : ℤ) := by
  have hnat : 2 ^ 53 * 2 ^ 971 < 10 ^ 310 := by decide +kernel
  exact_mod_cast hnat

/-- The interval of a magnitude stays clear of the ranges that are known without powers. -/
theorem rounds_range {x : Magnitude} (hx : BinaryFormat.double.Holds x) (hpos : x.mantissa ≠ 0)
    {q : ℚ} (h : BinaryFormat.double.Rounds x q) :
    (10 : ℚ) ^ (-331 : ℤ) < q ∧ q < 10 ^ (310 : ℤ) := by
  obtain ⟨hlow, hhigh, -, -⟩ := rounds_bounds h
  obtain ⟨-, hmin, hmax, -⟩ := holds_double_iff.mp hx
  have hone : (1 : ℚ) ≤ 2 := by norm_num
  have hupos : (0 : ℚ) < 2 ^ x.exponent := by positivity
  obtain ⟨hmantissaLow, hmantissaHigh⟩ := mantissa_bounds hx hpos
  rw [le_div_iff₀ hupos] at hlow
  rw [div_le_iff₀ hupos] at hhigh
  constructor
  · calc (10 : ℚ) ^ (-331 : ℤ) < 1 / 2 * 2 ^ (-1074 : ℤ) := pow_ten_lt_least
      _ ≤ 1 / 2 * 2 ^ x.exponent :=
          mul_le_mul_of_nonneg_left (zpow_le_zpow_right₀ hone hmin) (by norm_num)
      _ ≤ q := by nlinarith
  · calc q ≤ 2 ^ 53 * 2 ^ x.exponent := by nlinarith
      _ ≤ 2 ^ 53 * 2 ^ (971 : ℤ) :=
          mul_le_mul_of_nonneg_left (zpow_le_zpow_right₀ hone hmax) (by norm_num)
      _ < 10 ^ (310 : ℤ) := greatest_lt_pow_ten

/-- A decimal of the interval of a magnitude is read as it. -/
theorem nearestDecimal_of_rounds {x : Magnitude} (hx : BinaryFormat.double.Holds x)
    (hpos : x.mantissa ≠ 0) {d : Decimal} (h : BinaryFormat.double.Rounds x d.value)
    (negative : Bool) : nearestDecimal negative d = ofParts (.finite negative x) := by
  obtain ⟨hlow, hhigh⟩ := rounds_range hx hpos h
  have hten : (1 : ℚ) < 10 := by norm_num
  have hdigits : 0 < d.digits := by
    rcases Nat.eq_zero_or_pos d.digits with hzero | hdigits
    · rw [Decimal.value, hzero, Nat.cast_zero, zero_mul] at hlow
      exact absurd hlow (not_lt.mpr (by positivity))
    · exact hdigits
  obtain ⟨hvalueLow, hvalueHigh⟩ := Decimal.value_bounds hdigits
  have htopLow := (zpow_lt_zpow_iff_right₀ hten).mp (hlow.trans hvalueHigh)
  have htopHigh := (zpow_lt_zpow_iff_right₀ hten).mp (hvalueLow.trans_lt hhigh)
  have hquotient : ((d.digits * 10 ^ d.exponent.toNat : ℕ) : ℚ) / (10 ^ (-d.exponent).toNat : ℕ)
      = d.value := by
    rw [Decimal.value, zpow_eq_div]
    push_cast
    ring
  have hnearest : BinaryFormat.double.nearest? (d.digits * 10 ^ d.exponent.toNat)
      (10 ^ (-d.exponent).toNat) = some x := by
    apply nearest?_of_rounds hx hpos (by positivity)
    rw [hquotient]
    exact h
  rw [nearestDecimal, if_neg (by omega), if_neg (by omega), BinaryFormat.nearest, hnearest]

end ConfigLang.Number
