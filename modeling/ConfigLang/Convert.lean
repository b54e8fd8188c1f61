import ConfigLang.Fault.Basic
import ConfigLang.Number.FloatNumeral
import ConfigLang.Text.Blank

set_option autoImplicit false

/-! # Explicit conversions

The four suffixes `.int`, `.float`, `.string` and `.bool` convert a value. A conversion to a string
never fails; the others take the scalars and the strings that spell a value of the target. -/

namespace ConfigLang

/-- What a suffix converts to. -/
inductive Target where
  | int
  | float
  | string
  | bool
  deriving DecidableEq, Repr

namespace Target

def ofName? (name : List Char) : Option Target :=
  let word := String.ofList name
  if word = "int" then some .int
  else if word = "float" then some .float
  else if word = "string" then some .string
  else if word = "bool" then some .bool
  else none

/-- The target of a name, or what is wrong with the name. -/
def ofName (name : List Char) : Except Fault Target :=
  match ofName? name with
  | some target => .ok target
  | none => .error (.mistyped (.unknownTarget (String.ofList name)))

end Target

namespace Value

/-! ## Integers -/

/-- A float less its fraction, in the range of 64 bits. -/
def truncated? (x : Float) : Option Int64 :=
  (Number.truncate? x).bind Number.int64?

/-- The integer that a string spells, as an integer or as a float less its fraction. -/
def spelledInt? (text : List Char) : Option Int64 :=
  match Number.readInt64? text with
  | some n => some n
  | none => (Number.readFloat? text).bind truncated?

def toInt? : Value → Option Int64
  | .int n => some n
  | .float x => truncated? x
  | .string s => spelledInt? (Text.trim s.toList)
  | _ => none

/-! ## Floats -/

def toFloat? : Value → Option Float
  | .int n => some (Number.ofInt n.toInt)
  | .float x => some x
  | .bool b => some (if b then 1 else 0)
  | .string s => Number.readFloat? (Text.trim s.toList)
  | _ => none

/-! ## Booleans -/

/-- The boolean that a word spells, in any case. -/
def spelledBool? (text : List Char) : Option Bool :=
  let word := String.ofList (text.map Char.toLower)
  if word = "true" ∨ word = "yes" ∨ word = "1" then some true
  else if word = "false" ∨ word = "no" ∨ word = "0" then some false
  else none

def toBool (v : Value) : Except Fault Bool :=
  match v with
  | .bool b => .ok b
  | .int n => .ok (n != 0)
  | .float x => .ok (x != 0)
  | .string s =>
    match spelledBool? (Text.trim s.toList) with
    | some b => .ok b
    | none => .error (.mistyped (.unknownWord v))
  | _ => .error (.mistyped (.toBool v))

/-! ## All targets -/

/-- Convert a value to a target. -/
def convert (v : Value) : Target → Except Fault Value
  | .int =>
    match v.toInt? with
    | some n => .ok (.int n)
    | none => .error (.mistyped (.toInt v))
  | .float =>
    match v.toFloat? with
    | some x => .ok (.float x)
    | none => .error (.mistyped (.toFloat v))
  | .string => .ok (.string v.shown)
  | .bool => v.toBool.map .bool

end Value

end ConfigLang
