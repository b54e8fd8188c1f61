import ConfigLang.Number.FloatNumeral
import ConfigLang.Number.Power
import ConfigLang.Value.Basic

set_option autoImplicit false

/-! # JSON numbers

A number is read in two steps. Its digits are gathered in a significand of 64 bits for as long as
they fit; the digits of the whole part that do not fit raise the exponent, those of the fraction are
dropped. The significand is then scaled by powers of ten in float arithmetic. An integer in range
stays an integer, and a number beyond the largest float is refused. -/

namespace ConfigLang.Json

open scoped CorePower

/-! ## The significand -/

/-- Gather digits behind `significand` while it fits 64 bits; the digits that are left over. -/
def gather (significand : Nat) : List Char → Nat × List Char
  | [] => (significand, [])
  | d :: rest =>
    let next := 10 * significand + (d.toNat - '0'.toNat)
    if next < 2 ^ (64 : Nat) then gather next rest else (significand, d :: rest)

/-! ## Scaling -/

/-- The float nearest to a power of ten. -/
def powerOfTen (e : Nat) : Float :=
  Number.nearestDecimal false ⟨1, e⟩

/-- The exponent of the largest power of ten that is a finite float. -/
def largestPower : Nat := 308

/-- Scale a float that is not negative by `10 ^ e`, or nothing beyond the largest float. -/
def scale? (x : Float) (e : Int) : Option Float :=
  if e.natAbs ≤ largestPower then
    if 0 ≤ e then
      let scaled := x * powerOfTen e.natAbs
      if Number.isFinite scaled then some scaled else none
    else some (x / powerOfTen e.natAbs)
  else if x == 0 then some x
  else if 0 ≤ e then none
  else scale? (x / powerOfTen largestPower) (e + largestPower)
termination_by (-e).toNat
decreasing_by
  simp only [largestPower] at *
  omega

/-- The float `significand · 10 ^ e` with its sign. -/
def scaled? (negative : Bool) (significand : Nat) (e : Int) : Option Value :=
  (scale? (Number.ofInt significand) e).map fun x => .float (if negative then -x else x)

/-! ## The parts of a number -/

/-- The value of an integer whose digits all fit the significand. -/
def integer (negative : Bool) (significand : Nat) : Value :=
  if negative then
    if 0 < significand ∧ significand ≤ 2 ^ (63 : Nat) then .int (Int64.ofInt (-(significand : Int)))
    else .float (-(Number.ofInt significand))
  else
    if significand < 2 ^ (63 : Nat) then .int (Int64.ofNat significand)
    else .float (Number.ofInt significand)

/-- The exponents that scale a number; beyond them it is zero or too large. -/
def exponentLimit : Nat := 2 ^ (31 : Nat)

/-- Scale by the exponent that stands at the end of a number, if there is one. -/
def withExponent? (negative : Bool) (significand : Nat) (e : Int) : List Char → Option Value
  | [] => scaled? negative significand e
  | c :: rest =>
    if c == 'e' || c == 'E' then
      let (down, digits) := Number.splitSign rest
      if !Number.isDigits digits then none
      else
        let n := Number.ofDigits digits
        if n < exponentLimit then scaled? negative significand (e + Number.signed down n)
        else if significand ≠ 0 ∧ !down then none
        else some (.float (if negative then -0 else 0))
    else none

/-- The number that stands behind its sign. -/
def unsigned? (negative : Bool) (text : List Char) : Option Value :=
  let whole := text.takeWhile Char.isDigit
  let rest := text.dropWhile Char.isDigit
  let (significand, left) := gather 0 whole
  if whole.isEmpty || (whole.head? == some '0' && whole.length != 1) then none
  else
    match rest with
    | [] =>
      if left.isEmpty then some (integer negative significand)
      else scaled? negative significand left.length
    | '.' :: tail =>
      let fraction := tail.takeWhile Char.isDigit
      let (longer, dropped) := gather significand fraction
      let used := fraction.length - dropped.length
      if fraction.isEmpty then none
      else
        withExponent? negative longer ((left.length : Int) - used) (tail.dropWhile Char.isDigit)
    | _ => withExponent? negative significand left.length rest

/-- The value of a JSON number. -/
def readNumber? : List Char → Option Value
  | '-' :: rest => unsigned? true rest
  | text => unsigned? false text

end ConfigLang.Json
