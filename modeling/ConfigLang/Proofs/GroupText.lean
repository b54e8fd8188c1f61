import ConfigLang.Proofs.ArrayText
import ConfigLang.Proofs.IntegerExpr

set_option autoImplicit false

/-! # The text in place of a group

The text that takes the place of a group is read again as an operand. Main statement: exactly the
values that `IsOperand` describes come back from their text (`evaluateFlat_groupText_iff`). The
others are the least integer, the floats that are not finite, and the arrays and objects whose JSON
holds a float that is not finite, a quote or an operator. -/

namespace ConfigLang.Expr

open Token

/-- Whether the text of a value, read as an operand, is the value again. -/
def IsOperand : Value → Prop
  | .int n => n ≠ Int64.minValue
  | .float x => Number.isFinite x = true
  | .array items =>
    Json.project (.array items) = .array items ∧ ∀ c ∈ Json.write (.array items), isBreak c = false
  | .object entries =>
    Json.project (.object entries) = .object entries
      ∧ ∀ c ∈ Json.write (.object entries), isBreak c = false
  | _ => True

section

variable {scope : Scope}

/-! ## Words and strings -/

theorem evaluateFlat_describes {text : List Char} {v : Value} (h : Describes scope text v)
    (hbreak : ∀ c ∈ text, isBreak c = false) : evaluateFlat scope.resolveOperand text = .ok v := by
  rw [evaluateFlat_operand (scan_of_no_break h.nonempty h.isBlank_of_mem hbreak),
    h.resolveOperand_eq]

theorem evaluateFlat_word {x : Scalar} (h : x.isWord = true) :
    evaluateFlat scope.resolveOperand x.literal = .ok x.value := by
  refine evaluateFlat_describes (describes_word h) fun c hc => ?_
  exact isBreak_of_class rfl (Scalar.isLower_of_mem_word h c hc)

theorem resolveOperand_quote (scope : Scope) (s : String) :
    scope.resolveOperand (Text.quote s.toList) = .ok (.string s) := by
  rw [scope.resolveOperand_of_simple (isSimpleLiteral_quote _), Literal.ofText_quote]
  rfl

theorem evaluateFlat_quote (s : String) :
    evaluateFlat scope.resolveOperand (Text.quote s.toList) = .ok (.string s) := by
  rw [evaluateFlat_operand (scan_quote s.toList), resolveOperand_quote]

/-! ## Integers -/

theorem fits_iff (n : Int64) : IntegerExpr.Fits n.toInt ↔ n ≠ Int64.minValue := by
  have hlow := n.le_toInt
  have hhigh := n.toInt_lt
  have hleast : n = Int64.minValue ↔ n.toInt = -2 ^ 63 := by
    rw [← Int64.toInt_inj]
    rfl
  rw [Ne, hleast, IntegerExpr.Fits]
  omega

theorem evaluateFlat_int {n : Int64} (h : n ≠ Int64.minValue) :
    evaluateFlat scope.resolveOperand (Number.integerText n.toInt) = .ok (.int n) := by
  have hwritten : Written .sum (.ofInt n.toInt) (Number.integerText n.toInt) :=
    .ofTighter (.ofTighter (Written.ofInt n.toInt))
  have hopen : '(' ∉ Number.integerText n.toInt :=
    fun hmem => ne_of_mem_integer (Number.isInteger_integerText _) hmem rfl rfl
  have hexact : (IntegerExpr.ofInt n.toInt).Exact scope :=
    IntegerExpr.exact_ofInt ((fits_iff n).mpr h)
  rw [hwritten.evaluateFlat_eq hexact hopen, IntegerExpr.value_ofInt, intValue, Int64.ofInt_toInt]

/-- The least integer is read as the negation of an integer that does not fit. -/
theorem evaluateFlat_least (scope : Scope) :
    ∃ x, evaluateFlat scope.resolveOperand (Number.integerText Int64.minValue.toInt)
      = .ok (.float x) := by
  have hdigits : Number.isDigits "9223372036854775808".toList = true := by decide
  have hinteger := Number.isInteger_of_isDigits hdigits
  obtain ⟨x, hx⟩ := Option.isSome_iff_exists.mp (Number.isSome_readFloat?_of_isInteger hinteger)
  have hreference : isReference "9223372036854775808".toList = false := by
    simp only [isReference, isSimpleLiteral_integer hinteger, Bool.not_true, Bool.false_and]
  have hliteral : Literal.ofText "9223372036854775808".toList = .ok (.value (.float x)) := by
    apply Literal.ofText_of_numeral (trim_integer hinteger)
      fun c hc => isNoLead_of_mem_integer hinteger (List.mem_of_mem_head? hc)
    have hnone : Number.readInt64? "9223372036854775808".toList = none := by decide
    rw [numberValue?, hnone, hinteger, hx]
    rfl
  have hscan : Token.scan (Number.integerText Int64.minValue.toInt)
      = [.operator .sub, .operand "9223372036854775808".toList] := by
    have hplain := (plainOperand_of_isDigits hdigits).scan_eq
    rw [← hplain]
    exact scan_operator rfl _
  refine ⟨-x, ?_⟩
  rw [evaluateFlat_negative hscan, Scope.resolveOperand, hreference, hliteral]
  rfl

/-! ## Floats -/

theorem evaluateFlat_float {x : Float} (h : Number.isFinite x = true) :
    evaluateFlat scope.resolveOperand (Number.floatText .plain x) = .ok (.float x) := by
  unfold Number.isFinite at h
  split at h
  next negative m hparts =>
    have hholds := Number.holds_of_decode hparts
    obtain ⟨whole, fraction, htext, hwhole, hfraction, hvalue⟩ :=
      Number.exists_magnitudeText hholds (Or.inr rfl : Number.FloatForm.plain.isPositional m)
    have hdescribes : Describes scope (whole ++ '.' :: fraction)
        (.float (Number.ofParts (.finite false m))) := hvalue ▸ describes_pointed hwhole hfraction
    have hbreak : ∀ c ∈ whole ++ '.' :: fraction, isBreak c = false := by
      intro c hc
      rcases isDigit_or_point_of_mem hwhole hfraction hc with hdigit | rfl
      · exact isBreak_of_class rfl hdigit
      · rfl
    rw [Number.floatText, hparts, Number.partsText, htext]
    cases negative with
    | false =>
      rw [← Number.ofParts_partsOf hparts]
      exact evaluateFlat_describes hdescribes hbreak
    | true =>
      have hscan : Token.scan ('-' :: (whole ++ '.' :: fraction))
          = [.operator .sub, .operand (whole ++ '.' :: fraction)] := by
        rw [scan_operator rfl, scan_of_no_break hdescribes.nonempty hdescribes.isBlank_of_mem hbreak]
      have hneg : -Number.ofParts (.finite false m) = x := by
        rw [Number.neg_ofParts hholds]
        exact Number.ofParts_partsOf hparts
      show evaluateFlat scope.resolveOperand ('-' :: (whole ++ '.' :: fraction)) = _
      rw [evaluateFlat_negative hscan, hdescribes.resolveOperand_eq, ← hneg]
      rfl
  next => exact absurd h (by decide)

/-- The texts of the floats that are not finite are words that stand for themselves. -/
theorem evaluateFlat_not_finite {x : Float} (h : Number.isFinite x = false) :
    evaluateFlat scope.resolveOperand (Number.floatText .plain x) ≠ .ok (.float x) := by
  have hword : ∀ word ∈ ["NaN", "inf"], scope.resolveOperand word.toList = .ok (.string word) := by
    intro word hword
    have hreference : isReference word.toList = false := by
      simp only [List.mem_cons, List.not_mem_nil, or_false] at hword
      rcases hword with rfl | rfl <;> decide
    have hliteral : Literal.ofText word.toList = .ok (.value (.string word)) := by
      simp only [List.mem_cons, List.not_mem_nil, or_false] at hword
      rcases hword with rfl | rfl <;> rfl
    rw [Scope.resolveOperand, hreference, hliteral]
    rfl
  rw [Number.floatText]
  cases hparts : Number.partsOf x with
  | nan =>
    have hscan : Token.scan "NaN".toList = [.operand "NaN".toList] := by decide
    rw [Number.partsText, evaluateFlat_operand hscan, hword "NaN" (by simp)]
    simp
  | infinite negative =>
    cases negative with
    | false =>
      have hscan : Token.scan "inf".toList = [.operand "inf".toList] := by decide
      show evaluateFlat scope.resolveOperand "inf".toList ≠ _
      rw [evaluateFlat_operand hscan, hword "inf" (by simp)]
      simp
    | true =>
      have hscan : Token.scan "-inf".toList = [.operator .sub, .operand "inf".toList] := by decide
      show evaluateFlat scope.resolveOperand "-inf".toList ≠ _
      rw [evaluateFlat_negative hscan, hword "inf" (by simp)]
      show negate (.string "inf") ≠ _
      have hnumber : Numeric.ofValue? (.string "inf") = none :=
        Option.isNone_iff_eq_none.mp (by decide)
      rw [negate, Numeric.ofValue, hnumber]
      simp [Except.map]
  | finite negative m =>
    simp [Number.isFinite, hparts] at h

/-! ## Arrays and objects -/

/-- JSON with a quote or an operator does not come back as an array or object. -/
theorem evaluateFlat_write_iff {v : Value} {c : Char} {rest : List Char}
    (hwrite : Json.write v = c :: rest) (hblank : Text.isBlank c = false)
    (hbreak : isBreak c = false) (hcompound : Chain.isCompound v = true) :
    evaluateFlat scope.resolveOperand (Json.write v) = .ok v
      ↔ Json.project v = v ∧ ∀ c ∈ Json.write v, isBreak c = false := by
  by_cases hnone : ∀ c ∈ Json.write v, isBreak c = false
  · rw [evaluateFlat_describes (describes_write v hnone) hnone, Except.ok.injEq]
    exact (and_iff_left hnone).symm
  · refine ⟨fun heval => ?_, fun h => absurd h.2 hnone⟩
    have hrest : ∃ d ∈ rest, isBreak d = true := by
      simp only [not_forall, Bool.not_eq_false] at hnone
      obtain ⟨d, hd, hdbreak⟩ := hnone
      rw [hwrite] at hd
      rcases List.mem_cons.mp hd with rfl | hmem
      · rw [hbreak] at hdbreak
        exact absurd hdbreak (by decide)
      · exact ⟨d, hmem, hdbreak⟩
    -- the break ends the operand that the first character begins, and a chain follows
    obtain ⟨operand, token, tokens, hscan⟩ := scan_break hblank hbreak hrest
    rw [← hwrite] at hscan
    rw [isCompound_of_evaluateFlat hscan heval] at hcompound
    exact absurd hcompound (by decide)

end

/-! ## All values -/

/-- The text in place of a group is read as the value of the group for these values only. -/
theorem evaluateFlat_groupText_iff (scope : Scope) (v : Value) :
    evaluateFlat scope.resolveOperand (groupText v) = .ok v ↔ IsOperand v := by
  cases v with
  | null => exact iff_of_true (evaluateFlat_word (x := .null) rfl) trivial
  | bool b => exact iff_of_true (evaluateFlat_word (x := .bool b) rfl) trivial
  | string s => exact iff_of_true (evaluateFlat_quote s) trivial
  | int n =>
    refine ⟨?_, evaluateFlat_int⟩
    rintro heval rfl
    obtain ⟨x, hx⟩ := evaluateFlat_least scope
    exact absurd (hx.symm.trans heval) (by simp)
  | float x =>
    refine ⟨fun heval => ?_, evaluateFlat_float⟩
    by_contra hfinite
    exact evaluateFlat_not_finite (Bool.eq_false_iff.mpr hfinite) heval
  | array items =>
    exact evaluateFlat_write_iff (v := .array items) (by rw [Json.write]; rfl) rfl rfl rfl
  | object entries =>
    exact evaluateFlat_write_iff (v := .object entries) (by rw [Json.write]; rfl) rfl rfl rfl

/-- The least integer comes back as a float. -/
theorem evaluateFlat_groupText_least :
    evaluateFlat (Scope.resolveOperand { tree := ⟨[]⟩ }) (groupText (.int Int64.minValue))
      ≠ .ok (.int Int64.minValue) := by
  intro heval
  obtain ⟨x, hx⟩ := evaluateFlat_least { tree := ⟨[]⟩ }
  exact absurd (hx.symm.trans heval) (by simp)

end ConfigLang.Expr
