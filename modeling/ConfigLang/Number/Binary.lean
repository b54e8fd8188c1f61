import ConfigLang.Number.Power

set_option autoImplicit false

/-! # Binary floating-point numbers, exactly

A finite float is a sign and a magnitude `mantissa · 2 ^ exponent`. This file decodes the bits of a
float into these parts, encodes them again, and rounds any quotient of naturals to the nearest
magnitude of a format, a half going to the even mantissa. All of it is arithmetic on naturals. -/

namespace ConfigLang.Number

open scoped CorePower

/-! ## Formats and parts -/

/-- A binary interchange format. -/
structure BinaryFormat where
  /-- The bits of a mantissa, the leading one included. -/
  precision : Nat
  /-- The bits of the exponent field. -/
  exponentBits : Nat
  /-- The exponent of the smallest magnitudes. -/
  minExponent : Int
  deriving DecidableEq, Repr

namespace BinaryFormat

/-- The format of `Float`. -/
def double : BinaryFormat := ⟨53, 11, -1074⟩

/-- The format of `Float32`. -/
def single : BinaryFormat := ⟨24, 8, -149⟩

/-- The least mantissa of a magnitude whose exponent is not the smallest. -/
def leadingBit (f : BinaryFormat) : Nat :=
  2 ^ (f.precision - 1)

/-- The exponent field of infinities and of what is not a number. -/
def specialField (f : BinaryFormat) : Nat :=
  2 ^ f.exponentBits - 1

/-- The exponent of the largest finite magnitudes. -/
def maxExponent (f : BinaryFormat) : Int :=
  f.minExponent + (f.specialField : Int) - 2

end BinaryFormat

/-- The number `mantissa · 2 ^ exponent`. -/
structure Magnitude where
  mantissa : Nat
  exponent : Int
  deriving DecidableEq, Repr

/-- What the bits of a float stand for. -/
inductive Parts where
  | nan
  | infinite (negative : Bool)
  | finite (negative : Bool) (magnitude : Magnitude)
  deriving DecidableEq, Repr

/-! ## Bits -/

namespace BinaryFormat

/-- The parts that a pattern of bits stands for. -/
def decode (f : BinaryFormat) (bits : Nat) : Parts :=
  let fraction := bits % f.leadingBit
  let field := bits / f.leadingBit % 2 ^ f.exponentBits
  let negative := bits / f.leadingBit / 2 ^ f.exponentBits % 2 == 1
  if field = f.specialField then
    if fraction = 0 then .infinite negative else .nan
  else if field = 0 then .finite negative ⟨fraction, f.minExponent⟩
  else .finite negative ⟨f.leadingBit + fraction, f.minExponent + (field : Int) - 1⟩

/-- The sign bit. -/
def signBit (f : BinaryFormat) (negative : Bool) : Nat :=
  if negative then f.leadingBit * 2 ^ f.exponentBits else 0

/-- The pattern of bits that stands for the parts. -/
def encode (f : BinaryFormat) : Parts → Nat
  | .nan => f.specialField * f.leadingBit + f.leadingBit / 2
  | .infinite negative => f.signBit negative + f.specialField * f.leadingBit
  | .finite negative x =>
    if x.mantissa < f.leadingBit then f.signBit negative + x.mantissa
    else
      f.signBit negative + (x.exponent - f.minExponent + 1).toNat * f.leadingBit
        + (x.mantissa - f.leadingBit)

end BinaryFormat

/-! ## Rounding -/

/-- The multiple of `2 ^ exponent` nearest to `num / den`, a half going to the even multiple. -/
def roundAt (num den : Nat) (exponent : Int) : Nat :=
  let a := num * 2 ^ (-exponent).toNat
  let b := den * 2 ^ exponent.toNat
  if 2 * (a % b) < b ∨ 2 * (a % b) = b ∧ a / b % 2 = 0 then a / b else a / b + 1

namespace BinaryFormat

/-- The exponent at which `num / den` has a mantissa of full precision, or the smallest exponent. -/
def exponentOf (f : BinaryFormat) (num den : Nat) : Int :=
  let low := max f.minExponent ((num.log2 : Int) - (den.log2 : Int) - (f.precision : Int))
  if num * 2 ^ (-low).toNat < 2 ^ f.precision * (den * 2 ^ low.toNat) then low else low + 1

/-- The magnitude nearest to `num / den`, or nothing beyond the largest one. -/
def nearest? (f : BinaryFormat) (num den : Nat) : Option Magnitude :=
  if num = 0 then some ⟨0, f.minExponent⟩
  else
    let exponent := f.exponentOf num den
    let mantissa := roundAt num den exponent
    let rounded : Magnitude :=
      if mantissa = 2 ^ f.precision then ⟨f.leadingBit, exponent + 1⟩ else ⟨mantissa, exponent⟩
    if rounded.exponent ≤ f.maxExponent then some rounded else none

/-- The signed number of the format nearest to `num / den`; beyond the largest it is infinite. -/
def nearest (f : BinaryFormat) (negative : Bool) (num den : Nat) : Parts :=
  match f.nearest? num den with
  | some x => .finite negative x
  | none => .infinite negative

end BinaryFormat

end ConfigLang.Number
