import ConfigLang.Number.Binary
import ConfigLang.Number.Integer
import ConfigLang.Number.Power

set_option autoImplicit false

/-! # The shortest decimal of a float

The reals that round to a magnitude form an interval around it. On the decimal grids with 1, 2, …
digits the two neighbours of the magnitude are tried; the first grid that has one of them in the
interval wins, and of two the nearer. Where both are equally near, the caller says which one. -/

namespace ConfigLang.Number

open scoped CorePower

/-- The number `digits · 10 ^ exponent`. -/
structure Decimal where
  digits : Nat
  exponent : Int
  deriving DecidableEq, Repr

/-- Where a decimal halfway between two neighbours goes. -/
inductive Tie where
  | up
  | toEven
  deriving DecidableEq, Repr

/-! ## Comparing the two kinds of number -/

/-- The two sides of a comparison of `c · 10 ^ k` with `n · 2 ^ e`, as naturals. -/
def crossScaled (c : Nat) (k : Int) (n : Nat) (e : Int) : Nat × Nat :=
  (c * 10 ^ k.toNat * 2 ^ (-e).toNat, n * 10 ^ (-k).toNat * 2 ^ e.toNat)

/-- The digits of a natural before its point. -/
def digitCount (n : Nat) : Nat :=
  (digitsOf n).length

/-- The `p` with `10 ^ (p - 1) ≤ x < 10 ^ p`, for a magnitude other than zero. -/
def Magnitude.pointOf (x : Magnitude) : Int :=
  let num := x.mantissa * 2 ^ x.exponent.toNat
  let den := 2 ^ (-x.exponent).toNat
  if den ≤ num then digitCount (num / den)
  else
    -- the least `j` with `1 / x ≤ 10 ^ j`
    let inverse := (den + num - 1) / num
    1 - (digitCount (inverse - 1) : Int)

/-! ## The interval of a magnitude -/

namespace BinaryFormat

/-- The reals that round to `x`: the two ends, as multiples of a quarter of the last place. -/
def ends (f : BinaryFormat) (x : Magnitude) : Nat × Nat :=
  let below := if x.mantissa = f.leadingBit ∧ f.minExponent < x.exponent then 1 else 2
  (4 * x.mantissa - below, 4 * x.mantissa + 2)

/-- Whether `c · 10 ^ k` rounds to `x`; the ends do exactly if the mantissa is even. -/
def roundsTo (f : BinaryFormat) (x : Magnitude) (c : Nat) (k : Int) : Bool :=
  let (low, high) := f.ends x
  let (a, l) := crossScaled c k low (x.exponent - 2)
  let (_, h) := crossScaled c k high (x.exponent - 2)
  if x.mantissa % 2 = 0 then l ≤ a && a ≤ h else l < a && a < h

end BinaryFormat

/-! ## Choosing the digits -/

/-- The nearer of the neighbours `c` and `c + 1` of `x` on the grid of `10 ^ k`. -/
def nearerNeighbour (tie : Tie) (x : Magnitude) (c : Nat) (k : Int) : Nat :=
  let (middle, value) := crossScaled (2 * c + 1) k (2 * x.mantissa) x.exponent
  if value < middle then c
  else if middle < value then c + 1
  else
    match tie with
    | .up => c + 1
    | .toEven => if c % 2 = 0 then c else c + 1

/-- The neighbour of `x` that the grid of `10 ^ k` offers, if it has one in the interval. -/
def candidate? (f : BinaryFormat) (tie : Tie) (x : Magnitude) (k : Int) : Option Nat :=
  let (den, num) := crossScaled 1 k x.mantissa x.exponent
  let c := num / den
  match f.roundsTo x c k, f.roundsTo x (c + 1) k with
  | true, true => some (nearerNeighbour tie x c k)
  | true, false => some c
  | false, true => some (c + 1)
  | false, false => none

/-- The decimal that is exactly `x`. -/
def Magnitude.exactDecimal (x : Magnitude) : Decimal :=
  ⟨x.mantissa * 2 ^ x.exponent.toNat * 5 ^ (-x.exponent).toNat, min x.exponent 0⟩

/-- Digits that always suffice to tell two magnitudes apart. -/
def mostDigits : Nat := 17

/-- The decimal with the fewest digits that rounds to `x`, a magnitude other than zero. -/
def shortest (f : BinaryFormat) (tie : Tie) (x : Magnitude) : Decimal :=
  let point := x.pointOf
  let found := (List.range mostDigits).findSome? fun (n : Nat) =>
    let k := point - ((n : Int) + 1)
    (candidate? f tie x k).map fun c => (⟨c, k⟩ : Decimal)
  found.getD x.exactDecimal

end ConfigLang.Number
