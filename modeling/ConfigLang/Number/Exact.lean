import ConfigLang.Number.Binary
import ConfigLang.Number.Power

set_option autoImplicit false

/-! # Exact operations on floats

Operations that decide on the bits of a float what the number is: its conversion from and to whole
numbers, the remainder of a division, and narrowing to single precision. -/

namespace ConfigLang.Number

open scoped CorePower

/-! ## Parts of a float -/

def partsOf (x : Float) : Parts :=
  BinaryFormat.double.decode x.toBits.toNat

def ofParts (parts : Parts) : Float :=
  Float.ofBits (UInt64.ofNat (BinaryFormat.double.encode parts))

def partsOfSingle (x : Float32) : Parts :=
  BinaryFormat.single.decode x.toBits.toNat

def isFinite (x : Float) : Bool :=
  match partsOf x with
  | .finite _ _ => true
  | _ => false

/-! ## Whole numbers -/

/-- The float nearest to an integer. -/
def ofInt (n : Int) : Float :=
  ofParts (BinaryFormat.double.nearest (n < 0) n.natAbs 1)

/-- A magnitude as a quotient of naturals. -/
def Magnitude.quotient (x : Magnitude) : Nat × Nat :=
  (x.mantissa * 2 ^ x.exponent.toNat, 2 ^ (-x.exponent).toNat)

/-- A finite float less its fraction. -/
def truncate? (x : Float) : Option Int :=
  match partsOf x with
  | .finite negative m =>
    let whole : Int := m.quotient.1 / m.quotient.2
    some (if negative then -whole else whole)
  | _ => none

/-- Whether a float is finite and has no fraction. -/
def isWhole (x : Float) : Bool :=
  match partsOf x with
  | .finite _ m => m.quotient.1 % m.quotient.2 == 0
  | _ => false

/-! ## Remainders -/

/-- The remainder of two magnitudes, exactly. -/
def Magnitude.remainder (a b : Magnitude) : Magnitude :=
  let exponent := min a.exponent b.exponent
  let scaled (x : Magnitude) : Nat := x.mantissa * 2 ^ (x.exponent - exponent).toNat
  ⟨scaled a % scaled b, exponent⟩

/-- The remainder of a division whose quotient is truncated: it has the sign of `a`. -/
def remainder (a b : Float) : Float :=
  match partsOf a, partsOf b with
  | .finite negative x, .finite _ y =>
    if y.mantissa = 0 then ofParts .nan
    else
      let r := x.remainder y
      ofParts (BinaryFormat.double.nearest negative r.quotient.1 r.quotient.2)
  | .finite _ _, .infinite _ => a
  | _, _ => ofParts .nan

/-- The remainder of a division whose quotient is floored: it has the sign of `b`. -/
def flooredRemainder (a b : Float) : Float :=
  let r := remainder a b
  if r != 0 && (r < 0) != (b < 0) then r + b else r

/-! ## Single precision -/

/-- The float of single precision nearest to a float. -/
def narrow (x : Float) : Float32 :=
  let parts :=
    match partsOf x with
    | .finite negative m => BinaryFormat.single.nearest negative m.quotient.1 m.quotient.2
    | parts => parts
  Float32.ofBits (UInt32.ofNat (BinaryFormat.single.encode parts))

end ConfigLang.Number
