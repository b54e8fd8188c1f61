import ConfigLang.Number.FloatText
import ConfigLang.Proofs.FloatRounding
import ConfigLang.Proofs.Scalar

set_option autoImplicit false

/-! # Reading floats back

The decimal that writing chooses for a magnitude lies in the interval of the magnitude
(`rounds_shortest`), and digits laid out around a point are read as the decimal that they were
(`exists_positionalText`). Main statement: a finite float written without an exponent reads back
(`readFloat?_positional`). -/

namespace ConfigLang.Number

/-! ## The decimal of a magnitude -/

theorem roundsTo_of_candidate {f : BinaryFormat} {tie : Tie} {x : Magnitude} {k : ℤ} {c : ℕ}
    (h : candidate? f tie x k = some c) : f.roundsTo x c k = true := by
  unfold candidate? at h
  dsimp only at h
  split at h
  next hlow hhigh =>
    rw [Option.some.injEq] at h
    rw [← h]
    unfold nearerNeighbour
    dsimp only
    split
    · exact hlow
    · split
      · exact hhigh
      · split
        · exact hhigh
        · split
          · exact hlow
          · exact hhigh
  next hlow _ =>
    rw [Option.some.injEq] at h
    rw [← h]
    exact hlow
  next _ hhigh =>
    rw [Option.some.injEq] at h
    rw [← h]
    exact hhigh
  next => exact absurd h (by simp)

theorem value_exactDecimal (x : Magnitude) : x.exactDecimal.value = x.value := by
  rw [Decimal.value, Magnitude.value, Magnitude.exactDecimal]
  dsimp only
  rcases le_total 0 x.exponent with hle | hle
  · have hneg : (-x.exponent).toNat = 0 := by omega
    rw [min_eq_right hle, hneg, zpow_zero, mul_one, pow_zero, mul_one, zpow_eq_div 2, hneg, pow_zero,
      div_one]
    push_cast
    ring
  · have hpos : x.exponent.toNat = 0 := by omega
    rw [min_eq_left hle, hpos, zpow_eq_div 2, zpow_eq_div 10, hpos, pow_zero, pow_zero]
    have hten : (10 : ℚ) ^ (-x.exponent).toNat
        = 2 ^ (-x.exponent).toNat * 5 ^ (-x.exponent).toNat := by
      rw [← mul_pow]
      norm_num
    rw [hten]
    push_cast
    field_simp

theorem rounds_value {x : Magnitude} (hpos : x.mantissa ≠ 0) :
    BinaryFormat.double.Rounds x x.value := by
  have hquarter : (0 : ℚ) < 2 ^ x.exponent / 4 := by positivity
  have hvalue : x.value = 4 * x.mantissa * (2 ^ x.exponent / 4) := by
    rw [Magnitude.value]
    ring
  have hlow : ((BinaryFormat.double.ends x).1 : ℚ) * 2 ^ (x.exponent - 2) < x.value := by
    rw [two_zpow_sub_two, hvalue]
    exact mul_lt_mul_of_pos_right (ends_fst_lt hpos) hquarter
  have hhigh : x.value < ((BinaryFormat.double.ends x).2 : ℚ) * 2 ^ (x.exponent - 2) := by
    rw [two_zpow_sub_two, hvalue, ends_snd]
    exact mul_lt_mul_of_pos_right (by linarith) hquarter
  unfold BinaryFormat.Rounds
  split
  · exact ⟨hlow.le, hhigh.le⟩
  · exact ⟨hlow, hhigh⟩

/-- The decimal that writing chooses rounds to the magnitude. -/
theorem rounds_shortest {x : Magnitude} (hpos : x.mantissa ≠ 0) (tie : Tie) :
    BinaryFormat.double.Rounds x (shortest .double tie x).value := by
  unfold shortest
  dsimp only
  cases hfound : (List.range mostDigits).findSome? (fun (n : ℕ) =>
      (candidate? .double tie x (x.pointOf - ((n : ℤ) + 1))).map
        fun c => (⟨c, x.pointOf - ((n : ℤ) + 1)⟩ : Decimal)) with
  -- no shorter decimal was found, so all digits are written
  | none =>
    rw [Option.getD_none, value_exactDecimal]
    exact rounds_value hpos
  | some d =>
    rw [Option.getD_some]
    obtain ⟨n, -, hn⟩ := List.exists_of_findSome?_eq_some hfound
    obtain ⟨c, hc, rfl⟩ := Option.map_eq_some_iff.mp hn
    exact roundsTo_iff.mp (roundsTo_of_candidate hc)

/-! ## Digits around a point -/

theorem ofDigits_append (left right : List Char) :
    ofDigits (left ++ right) = 10 ^ right.length * ofDigits left + ofDigits right := by
  rw [ofDigits, Nat.ofDigitChars_append, Nat.ofDigitChars_eq_ofDigitChars_zero]
  rfl

theorem ofDigits_zeros (n : ℕ) : ofDigits (List.replicate n '0') = 0 := by
  rw [ofDigits, Nat.ofDigitChars_replicate_zero, Nat.mul_zero]

/-- The decimal of digits with a point among them. -/
def pointed (whole fraction : List Char) : Decimal :=
  ⟨ofDigits (whole ++ fraction), 0 - (fraction.length : ℤ)⟩

theorem isDigit_of_mem_zeros {n : ℕ} {c : Char} (h : c ∈ List.replicate n '0') :
    c.isDigit = true := by
  rw [(List.mem_replicate.mp h).2]
  rfl

theorem isDigits_of_all {digits : List Char} (hne : digits ≠ [])
    (h : ∀ c ∈ digits, c.isDigit = true) : isDigits digits = true := by
  rw [isDigits, Bool.and_eq_true, List.all_eq_true]
  exact ⟨by simpa using hne, h⟩

theorem value_pointed_zeros (digits : List Char) (n : ℕ) :
    (pointed ['0'] (List.replicate n '0' ++ digits)).value
      = ofDigits digits * 10 ^ (-(n : ℤ) - digits.length) := by
  have hzero : ofDigits ['0'] = 0 := ofDigits_zeros 1
  have hdigits : ofDigits (['0'] ++ (List.replicate n '0' ++ digits)) = ofDigits digits := by
    rw [ofDigits_append, ofDigits_append, ofDigits_zeros, hzero, Nat.mul_zero, Nat.mul_zero,
      Nat.zero_add, Nat.zero_add]
  have hexponent : 0 - ((List.replicate n '0' ++ digits).length : ℤ) = -(n : ℤ) - digits.length := by
    rw [List.length_append, List.length_replicate]
    omega
  rw [Decimal.value, pointed, hdigits, hexponent]

theorem value_pointed_padded (digits : List Char) (n : ℕ) :
    (pointed (digits ++ List.replicate n '0') ['0']).value = ofDigits digits * 10 ^ (n : ℤ) := by
  have hzero : ofDigits ['0'] = 0 := ofDigits_zeros 1
  rw [Decimal.value, pointed, ofDigits_append, ofDigits_append, ofDigits_zeros, hzero,
    List.length_replicate, zpow_natCast]
  push_cast
  rw [List.length_singleton, Nat.cast_one, zero_sub, zpow_neg_one]
  ring

theorem value_pointed_split (digits : List Char) {n : ℕ} (hn : n ≤ digits.length) :
    (pointed (digits.take n) (digits.drop n)).value
      = ofDigits digits * 10 ^ ((n : ℤ) - digits.length) := by
  have hexponent : 0 - ((digits.drop n).length : ℤ) = (n : ℤ) - digits.length := by
    rw [List.length_drop]
    omega
  rw [Decimal.value, pointed, List.take_append_drop, hexponent]

/-- The layout of digits without an exponent keeps their number. -/
theorem exists_positionalText {digits : List Char} (h : ∀ c ∈ digits, c.isDigit = true)
    (point : ℤ) :
    ∃ whole fraction, positionalText digits point = whole ++ '.' :: fraction
      ∧ isDigits whole = true ∧ (∀ c ∈ fraction, c.isDigit = true)
      ∧ (pointed whole fraction).value = ofDigits digits * 10 ^ (point - digits.length) := by
  have hzeros : ∀ n, ∀ c ∈ List.replicate n '0', c.isDigit = true :=
    fun _ _ hc => isDigit_of_mem_zeros hc
  unfold positionalText
  split
  next hpoint =>
    have hexponent : -((-point).toNat : ℤ) - digits.length = point - digits.length := by omega
    refine ⟨['0'], List.replicate (-point).toNat '0' ++ digits, rfl, rfl, ?_, ?_⟩
    · exact List.forall_mem_append.mpr ⟨hzeros _, h⟩
    · rw [value_pointed_zeros, hexponent]
  next hpoint =>
    split
    next hlength =>
      have hexponent : ((point.toNat - digits.length : ℕ) : ℤ) = point - digits.length := by omega
      refine ⟨digits ++ List.replicate (point.toNat - digits.length) '0', ['0'], by simp,
        isDigits_of_all ?_ (List.forall_mem_append.mpr ⟨h, hzeros _⟩), hzeros 1, ?_⟩
      · rw [← List.length_pos_iff, List.length_append, List.length_replicate]
        omega
      · rw [value_pointed_padded, hexponent]
    next hlength =>
      have hexponent : (point.toNat : ℤ) - digits.length = point - digits.length := by omega
      refine ⟨digits.take point.toNat, digits.drop point.toNat, rfl,
        isDigits_of_all ?_ fun c hc => h c (List.mem_of_mem_take hc),
        fun c hc => h c (List.mem_of_mem_drop hc), ?_⟩
      · rw [← List.length_pos_iff, List.length_take]
        omega
      · rw [value_pointed_split digits (by omega), hexponent]

/-- Digits with a point among them are read as their decimal. -/
theorem readDecimal?_pointed {whole fraction : List Char} (hwhole : isDigits whole = true)
    (hfraction : ∀ c ∈ fraction, c.isDigit = true) :
    readDecimal? (whole ++ '.' :: fraction) = some (pointed whole fraction) := by
  have hall : ∀ c ∈ whole, c.isDigit = true := fun c hc => isDigit_of_mem_isDigits hwhole hc
  have hpoint : ∀ c ∈ ('.' :: fraction).head?, c.isDigit = false := by
    intro c hc
    rw [List.head?_cons, Option.mem_some_iff] at hc
    rw [← hc]
    rfl
  have htake : fraction.takeWhile Char.isDigit = fraction := by
    simpa using @Text.takeWhile_run_append _ fraction [] hfraction (by simp)
  have hdrop : fraction.dropWhile Char.isDigit = [] := by
    simpa using @Text.dropWhile_run_append _ fraction [] hfraction (by simp)
  have hne : whole.isEmpty = false := by
    rw [isDigits, Bool.and_eq_true, Bool.not_eq_true'] at hwhole
    exact hwhole.1
  rw [readDecimal?, Text.takeWhile_run_append hall hpoint, Text.dropWhile_run_append hall hpoint,
    splitFraction, htake, hdrop]
  dsimp only
  rw [hne]
  rfl

/-! ## Magnitudes without an exponent -/

theorem digitsOf_eq_significantDigits (d : Decimal) :
    ∃ zeros, digitsOf d.digits = significantDigits d ++ List.replicate zeros '0' := by
  have hsplit := List.takeWhile_append_dropWhile (p := (· == '0')) (l := (digitsOf d.digits).reverse)
  obtain ⟨zeros, hzeros⟩ : ∃ zeros, (digitsOf d.digits).reverse.takeWhile (· == '0')
      = List.replicate zeros '0' := by
    refine ⟨_, List.eq_replicate_iff.mpr ⟨rfl, fun c hc => ?_⟩⟩
    exact beq_iff_eq.mp (List.all_eq_true.mp List.all_takeWhile c hc)
  have hreverse := congrArg List.reverse hsplit
  rw [List.reverse_append, List.reverse_reverse, hzeros, List.reverse_replicate] at hreverse
  exact ⟨zeros, hreverse.symm⟩

theorem isDigit_of_mem_significantDigits {d : Decimal} {c : Char} (h : c ∈ significantDigits d) :
    c.isDigit = true := by
  obtain ⟨zeros, hdigits⟩ := digitsOf_eq_significantDigits d
  apply @isDigit_of_mem_digitsOf d.digits
  rw [hdigits]
  exact List.mem_append_left _ h

/-- The zeros at the end of the digits count as powers of ten. -/
theorem value_eq_significantDigits (d : Decimal) :
    d.value = ofDigits (significantDigits d)
      * 10 ^ ((digitCount d.digits : ℤ) + d.exponent - (significantDigits d).length) := by
  obtain ⟨zeros, hdigits⟩ := digitsOf_eq_significantDigits d
  have hvalue : d.digits = 10 ^ zeros * ofDigits (significantDigits d) := by
    have h := ofDigits_digitsOf d.digits
    rw [hdigits, ofDigits_append, ofDigits_zeros, List.length_replicate, Nat.add_zero] at h
    exact h.symm
  have hcount : digitCount d.digits = (significantDigits d).length + zeros := by
    rw [digitCount, hdigits, List.length_append, List.length_replicate]
  have hexponent : (digitCount d.digits : ℤ) + d.exponent - (significantDigits d).length
      = zeros + d.exponent := by
    omega
  rw [hexponent, zpow_add₀ (by norm_num), zpow_natCast, Decimal.value]
  have hcast : (d.digits : ℚ) = 10 ^ zeros * ofDigits (significantDigits d) := by
    exact_mod_cast hvalue
  rw [hcast]
  ring

/-- Whether a form writes a magnitude without an exponent. -/
def FloatForm.isPositional (form : FloatForm) (x : Magnitude) : Prop :=
  x.mantissa = 0 ∨
    form.positional ((digitCount (shortest .double form.tie x).digits : ℤ)
      + (shortest .double form.tie x).exponent - 1) = true

/-- A magnitude written without an exponent is digits with a point that are read as it. -/
theorem exists_magnitudeText {x : Magnitude} (hx : BinaryFormat.double.Holds x) {form : FloatForm}
    (hform : form.isPositional x) :
    ∃ whole fraction, magnitudeText .double form x = whole ++ '.' :: fraction
      ∧ isDigits whole = true ∧ (∀ c ∈ fraction, c.isDigit = true)
      ∧ nearestDecimal false (pointed whole fraction) = ofParts (.finite false x) := by
  by_cases hzero : x.mantissa = 0
  · refine ⟨['0'], ['0'], by rw [magnitudeText, if_pos hzero]; rfl, rfl, ?_, ?_⟩
    · intro c hc
      rw [List.mem_singleton.mp hc]
      rfl
    · have hexponent : x.exponent = -1074 := by
        have := (holds_double_iff.mp hx).2.2.2
        omega
      have hx : x = ⟨0, -1074⟩ := by
        rw [← hzero, ← hexponent]
      have hdigits : (pointed ['0'] ['0']).digits = 0 := ofDigits_zeros 2
      rw [nearestDecimal, hx, if_pos (Or.inl hdigits)]
      rfl
  · have hpositional := hform.resolve_left hzero
    set d := shortest .double form.tie x with hd
    have hdigit : ∀ c ∈ significantDigits d, c.isDigit = true :=
      fun _ hc => isDigit_of_mem_significantDigits hc
    obtain ⟨whole, fraction, htext, hwhole, hfraction, hvalue⟩ :=
      exists_positionalText hdigit ((digitCount d.digits : ℤ) + d.exponent)
    refine ⟨whole, fraction, ?_, hwhole, hfraction, ?_⟩
    · rw [magnitudeText, if_neg hzero]
      dsimp only
      rw [← hd, if_pos hpositional, htext]
    · apply nearestDecimal_of_rounds hx hzero
      rw [hvalue, ← value_eq_significantDigits]
      exact rounds_shortest hzero form.tie

end ConfigLang.Number

namespace ConfigLang

open Text Number

/-! ## Pointed numerals as literals -/

section

variable {whole fraction : List Char} (hwhole : isDigits whole = true)
  (hfraction : ∀ c ∈ fraction, c.isDigit = true)

include hwhole hfraction

theorem isDigit_or_point_of_mem {c : Char} (hc : c ∈ whole ++ '.' :: fraction) :
    c.isDigit = true ∨ c = '.' := by
  rcases List.mem_append.mp hc with hmem | hmem
  · exact Or.inl (isDigit_of_mem_isDigits hwhole hmem)
  · rcases List.mem_cons.mp hmem with rfl | hmem
    · exact Or.inr rfl
    · exact Or.inl (hfraction c hmem)

theorem trim_pointed : trim (whole ++ '.' :: fraction) = whole ++ '.' :: fraction := by
  apply trim_of_no_blank
  intro c hc
  rcases isDigit_or_point_of_mem hwhole hfraction hc with hdigit | rfl
  · exact isBlank_of_isAlphanum (by simp [Char.isAlphanum, hdigit])
  · rfl

theorem readFloat?_pointed :
    readFloat? (whole ++ '.' :: fraction) = some (nearestDecimal false (pointed whole fraction)) := by
  have hsign : splitSign (whole ++ '.' :: fraction) = (false, whole ++ '.' :: fraction) := by
    cases whole with
    | nil => exact absurd hwhole (by decide)
    | cons c rest =>
      exact splitSign_of_isDigit (isDigit_of_mem_isDigits hwhole List.mem_cons_self) _
  rw [readFloat?, hsign]
  dsimp only
  rw [readDecimal?_pointed hwhole hfraction]

theorem isSimpleLiteral_pointed : isSimpleLiteral (whole ++ '.' :: fraction) = true := by
  simp [isSimpleLiteral, trim_pointed hwhole hfraction, readFloat?_pointed hwhole hfraction]

/-- Digits with a point among them are read as a float. -/
theorem Literal.ofText_pointed :
    Literal.ofText (whole ++ '.' :: fraction)
      = .ok (.value (.float (nearestDecimal false (pointed whole fraction)))) := by
  have hpoint : (whole ++ '.' :: fraction).any (fun c => c == '.' || c == 'e' || c == 'E') = true :=
    List.any_eq_true.mpr ⟨'.', by simp, rfl⟩
  apply ofText_of_numeral (trim_pointed hwhole hfraction)
  · intro c hc
    cases whole with
    | nil => exact absurd hwhole (by decide)
    | cons d rest =>
      rw [List.cons_append, List.head?_cons, Option.mem_some_iff] at hc
      simp [isNoLead, ← hc, isDigit_of_mem_isDigits hwhole List.mem_cons_self]
  · rw [numberValue?, if_pos hpoint, readFloat?_pointed hwhole hfraction, Option.map_some]

end

end ConfigLang
