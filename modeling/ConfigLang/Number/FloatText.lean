import ConfigLang.Number.Exact
import ConfigLang.Number.Shortest

set_option autoImplicit false

/-! # Writing floats

A float is written with the fewest digits that read back, and always with a fraction or an exponent,
so that it does not read as an integer. Three forms differ in where positional notation ends, in the
sign of an exponent, and in where a tie of the digits goes: the form of a value on its own, the form
without exponents, and the form inside arrays and objects. -/

namespace ConfigLang.Number

/-- The decisions of one form of float text. -/
structure FloatForm where
  /-- Whether a number whose first digit counts `10 ^ e` is written without an exponent. -/
  positional : Int → Bool
  /-- Whether an exponent that is not negative has a plus sign. -/
  plusSign : Bool
  tie : Tie

namespace FloatForm

/-- Positional from 0.0001 and below 10000000000000000. -/
def standard : FloatForm := ⟨fun e => -4 ≤ e && e < 16, false, .up⟩

/-- Positional throughout. -/
def plain : FloatForm := ⟨fun _ => true, false, .up⟩

/-- Positional from 0.00001 and below 10000000000000000. -/
def nested : FloatForm := ⟨fun e => -5 ≤ e && e < 16, true, .toEven⟩

end FloatForm

/-! ## Layout -/

/-- Digits without an exponent, where `point` digits stand before the decimal point. -/
def positionalText (digits : List Char) (point : Int) : List Char :=
  if point ≤ 0 then '0' :: '.' :: List.replicate (-point).toNat '0' ++ digits
  else if (digits.length : Int) ≤ point then
    digits ++ List.replicate (point.toNat - digits.length) '0' ++ ['.', '0']
  else digits.take point.toNat ++ '.' :: digits.drop point.toNat

/-- Digits with an exponent, one digit before the decimal point. -/
def exponentText (plusSign : Bool) (digits : List Char) (e : Int) : List Char :=
  let fraction := digits.drop 1
  let sign := if e < 0 then ['-'] else if plusSign then ['+'] else []
  digits.take 1 ++ (if fraction.isEmpty then [] else '.' :: fraction)
    ++ 'e' :: sign ++ digitsOf e.natAbs

/-- The digits of a decimal without the zeros at its end. -/
def significantDigits (d : Decimal) : List Char :=
  ((digitsOf d.digits).reverse.dropWhile (· == '0')).reverse

def magnitudeText (f : BinaryFormat) (form : FloatForm) (x : Magnitude) : List Char :=
  if x.mantissa = 0 then ['0', '.', '0']
  else
    let d := shortest f form.tie x
    let digits := significantDigits d
    let point := (digitCount d.digits : Int) + d.exponent
    if form.positional (point - 1) then positionalText digits point
    else exponentText form.plusSign digits (point - 1)

def partsText (f : BinaryFormat) (form : FloatForm) : Parts → List Char
  | .nan => "NaN".toList
  | .infinite negative => signText negative ++ "inf".toList
  | .finite negative x => signText negative ++ magnitudeText f form x

/-- The text of a float in a form. -/
def floatText (form : FloatForm) (x : Float) : List Char :=
  partsText .double form (partsOf x)

/-- The text of a float of single precision in a form. -/
def singleText (form : FloatForm) (x : Float32) : List Char :=
  partsText .single form (partsOfSingle x)

end ConfigLang.Number
