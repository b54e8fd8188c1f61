import ConfigLang.Fault.Cause
import ConfigLang.Number.Integer
import ConfigLang.Number.Power

set_option autoImplicit false

/-! # Typed readers

A reader takes a value to a type or says what it wants instead. Integers may be written as floats
without a fraction; narrow integers must be in their range. -/

namespace ConfigLang.Typed

open scoped CorePower

/-- A way to read values as a type. -/
abbrev Reader (α : Type) := Value → Except Mistyped α

def string : Reader String
  | .string s => .ok s
  | v => .error (.wanted .string v)

def boolean : Reader Bool
  | .bool b => .ok b
  | v => .error (.wanted .boolean v)

/-! ## Numbers -/

def float : Reader Float
  | .float x => .ok x
  | .int n => .ok (Number.ofInt n.toInt)
  | v => .error (.wanted .number v)

/-- A float of single precision. -/
def single : Reader Float32 :=
  fun v => (float v).map Number.narrow

/-- The integer of 64 bits that a float without a fraction is. -/
def wholeInt64? (x : Float) : Option Int64 :=
  if Number.isWhole x then (Number.truncate? x).bind Number.int64? else none

def int64 : Reader Int64
  | .int n => .ok n
  | .float x =>
    match wholeInt64? x with
    | some n => .ok n
    | none => .error (.wanted .wholeNumber (.float x))
  | v => .error (.wanted .integer v)

/-- A range of integers and what it is called. -/
structure IntRange where
  name : String
  low : Int
  high : Int

namespace IntRange

def signed32 : IntRange := ⟨"i32", -2 ^ (31 : Nat), 2 ^ (31 : Nat) - 1⟩
def unsigned16 : IntRange := ⟨"u16", 0, 2 ^ (16 : Nat) - 1⟩
def unsigned32 : IntRange := ⟨"u32", 0, 2 ^ (32 : Nat) - 1⟩
def unsigned64 : IntRange := ⟨"u64", 0, 2 ^ (64 : Nat) - 1⟩
def unsignedWord : IntRange := ⟨"usize", 0, 2 ^ (64 : Nat) - 1⟩

end IntRange

/-- The integers of a range. -/
abbrev Ranged (range : IntRange) := { n : Int // range.low ≤ n ∧ n ≤ range.high }

def ranged (range : IntRange) : Reader (Ranged range) :=
  fun v => do
    let n := (← int64 v).toInt
    if h : range.low ≤ n ∧ n ≤ range.high then return ⟨n, h⟩
    else throw (.outOfRange n range.name range.low range.high)

/-! ## Arrays, options and objects -/

def list {α : Type} (item : Reader α) : Reader (List α)
  | .array items => items.mapM item
  | v => .error (.wanted .array v)

/-- Null as nothing, and any other value by its reader. -/
def optional {α : Type} (item : Reader α) : Reader (Option α)
  | .null => .ok none
  | v => (item v).map some

def entries : Reader (List (String × Value))
  | .object entries => .ok entries
  | v => .error (.wanted .object v)

end ConfigLang.Typed
