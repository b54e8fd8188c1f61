import ConfigLang.Expr.Token
import ConfigLang.Fault.Basic
import ConfigLang.Number.FloatNumeral

set_option autoImplicit false

/-! # Arithmetic on values

Addition joins as soon as one side is a string. Everything else is arithmetic: integers stay
integers for as long as the result fits 64 bits and become floats beyond that, division always gives
a float, and a remainder has the sign of its divisor. -/

namespace ConfigLang.Expr

/-! ## Numbers -/

/-- A number that arithmetic works on. -/
inductive Numeric where
  | int (n : Int64)
  | float (x : Float)
  deriving DecidableEq

namespace Numeric

def toFloat : Numeric → Float
  | .int n => Number.ofInt n.toInt
  | .float x => x

def isZero : Numeric → Bool
  | .int n => n == 0
  | .float x => x == 0

def toValue : Numeric → Value
  | .int n => .int n
  | .float x => .float x

/-- The number that a string spells. -/
def ofText? (text : List Char) : Option Numeric :=
  if text.any fun c => c == '.' || c == 'e' || c == 'E' then
    (Number.readFloat? text).map .float
  else (Number.readInt64? text).map .int

/-- The number that a value counts as. -/
def ofValue? : Value → Option Numeric
  | .int n => some (.int n)
  | .float x => some (.float x)
  | .bool b => some (.int (if b then 1 else 0))
  | .string s => ofText? (Text.trim s.toList)
  | _ => none

/-- The number that a value counts as, or what is wrong with the value. -/
def ofValue (v : Value) : Except Fault Numeric :=
  match ofValue? v with
  | some n => .ok n
  | none => .error (.mistyped (.notNumber v))

/-- An integer operation where its result fits 64 bits, and otherwise the one on floats. -/
def combine (onInts : Int → Int → Int) (onFloats : Float → Float → Float) (a b : Numeric) :
    Numeric :=
  match a, b with
  | .int m, .int n =>
    match Number.int64? (onInts m.toInt n.toInt) with
    | some r => .int r
    | none => .float (onFloats a.toFloat b.toFloat)
  | _, _ => .float (onFloats a.toFloat b.toFloat)

/-- The remainder of a division whose quotient is truncated, if there is a quotient and it fits 64
    bits. -/
def truncatedRemainder? (m n : Int64) : Option Int64 :=
  if n = 0 ∨ m = Int64.minValue ∧ n = -1 then none else some (m % n)

/-- Whether a remainder stands on the other side of zero than its divisor. -/
def isAcross (r n : Int64) : Bool :=
  r != 0 && decide (r < 0) != decide (n < 0)

/-- The remainder of a division whose quotient is floored; nothing remains where the truncated
    quotient does not fit. -/
def flooredRemainder (m n : Int64) : Int64 :=
  match truncatedRemainder? m n with
  | some r => if isAcross r n then r + n else r
  | none => 0

/-- The remainder with the sign of the divisor, which is not zero. -/
def remainder : Numeric → Numeric → Numeric
  | .int m, .int n => .int (flooredRemainder m n)
  | a, b => .float (Number.flooredRemainder a.toFloat b.toFloat)

def negate : Numeric → Numeric
  | .int n =>
    match Number.int64? (-n.toInt) with
    | some r => .int r
    | none => .float (-(Number.ofInt n.toInt))
  | .float x => .float (-x)

end Numeric

/-! ## Operators on values -/

def isString : Value → Bool
  | .string _ => true
  | _ => false

/-- Apply an operator other than a joining addition. -/
def compute (op : Operator) (lhs rhs : Value) : Except Fault Value := do
  let a ← Numeric.ofValue lhs
  let b ← Numeric.ofValue rhs
  match op with
  | .add => return (Numeric.combine (· + ·) (· + ·) a b).toValue
  | .sub => return (Numeric.combine (· - ·) (· - ·) a b).toValue
  | .mul => return (Numeric.combine (· * ·) (· * ·) a b).toValue
  | .div =>
    if b.isZero then throw (.mistyped (.divisionByZero lhs rhs))
    else return .float (a.toFloat / b.toFloat)
  | .rem =>
    if b.isZero then throw (.mistyped (.moduloByZero lhs rhs))
    else return (Numeric.remainder a b).toValue

/-- Apply an operator to two values. -/
def apply (op : Operator) (lhs rhs : Value) : Except Fault Value :=
  if op = .add ∧ (isString lhs ∨ isString rhs) then
    .ok (.string (String.ofList (lhs.text ++ rhs.text)))
  else compute op lhs rhs

/-- Change the sign of a value that counts as a number. -/
def negate (v : Value) : Except Fault Value :=
  (Numeric.ofValue v).map fun n => n.negate.toValue

end ConfigLang.Expr
