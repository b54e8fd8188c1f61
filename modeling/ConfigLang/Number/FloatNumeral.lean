import ConfigLang.Number.Exact
import ConfigLang.Number.Integer
import ConfigLang.Number.Power
import ConfigLang.Number.Shortest
import ConfigLang.Text.Split

set_option autoImplicit false

/-! # Float numerals

A float numeral is digits with at most one point among them, behind an optional sign and before an
optional exponent, or one of the words `inf`, `infinity` and `nan` in any case. It is read to the
nearest float, and beyond the largest one to an infinity. -/

namespace ConfigLang.Number

open scoped CorePower

/-- The float nearest to `digits · 10 ^ exponent`. Far outside the range of floats the answer is
    known without the powers. -/
def nearestDecimal (negative : Bool) (d : Decimal) : Float :=
  let top := (digitCount d.digits : Int) + d.exponent
  ofParts <|
    if d.digits = 0 ∨ top < -330 then .finite negative ⟨0, BinaryFormat.double.minExponent⟩
    else if 310 < top then .infinite negative
    else
      BinaryFormat.double.nearest negative (d.digits * 10 ^ d.exponent.toNat)
        (10 ^ (-d.exponent).toNat)

/-- The exponent at the end of a numeral: nothing at all, or `e` before an integer numeral. -/
def readExponent? : List Char → Option Int
  | [] => some 0
  | c :: rest => if c == 'e' || c == 'E' then readInteger? rest else none

/-- The digits behind the decimal point, if there is a point, and what follows them. -/
def splitFraction : List Char → List Char × List Char
  | '.' :: rest => (rest.takeWhile Char.isDigit, rest.dropWhile Char.isDigit)
  | text => ([], text)

/-- The decimal that a numeral without a sign stands for. -/
def readDecimal? (text : List Char) : Option Decimal :=
  let whole := text.takeWhile Char.isDigit
  let (fraction, rest) := splitFraction (text.dropWhile Char.isDigit)
  if whole.isEmpty && fraction.isEmpty then none
  else
    (readExponent? rest).map fun e => ⟨ofDigits (whole ++ fraction), e - (fraction.length : Int)⟩

/-- The number that a word stands for. -/
def readWord? (negative : Bool) (text : List Char) : Option Float :=
  let word := String.ofList (text.map Char.toLower)
  if word = "inf" ∨ word = "infinity" then some (ofParts (.infinite negative))
  else if word = "nan" then some (ofParts .nan)
  else none

/-- The float that a numeral stands for. -/
def readFloat? (text : List Char) : Option Float :=
  let (negative, body) := splitSign text
  match readDecimal? body with
  | some d => some (nearestDecimal negative d)
  | none => readWord? negative body

/-! ## Digits as float numerals -/

/-- Digits alone are a decimal without a fraction. -/
theorem readDecimal?_of_isDigits {digits : List Char} (h : isDigits digits = true) :
    readDecimal? digits = some ⟨ofDigits digits, 0⟩ := by
  simp only [isDigits, Bool.and_eq_true, Bool.not_eq_true', List.all_eq_true] at h
  obtain ⟨hne, hall⟩ := h
  have htake : digits.takeWhile Char.isDigit = digits := by
    simpa using @Text.takeWhile_run_append _ digits [] hall (by simp)
  have hdrop : digits.dropWhile Char.isDigit = [] := by
    simpa using @Text.dropWhile_run_append _ digits [] hall (by simp)
  simp [readDecimal?, htake, hdrop, splitFraction, readExponent?, hne]

theorem isSome_readFloat?_of_isInteger {text : List Char} (h : isInteger text = true) :
    (readFloat? text).isSome = true := by
  simp [readFloat?, readDecimal?_of_isDigits h]

end ConfigLang.Number
