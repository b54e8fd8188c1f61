import ConfigLang.Value.Entries

set_option autoImplicit false

/-! # Configuration values

What a key holds: a scalar, an array, or an object whose entries keep their order. -/

namespace ConfigLang

/-- A configuration value. -/
inductive Value where
  | null
  | bool (b : Bool)
  | int (n : Int64)
  | float (x : Float)
  | string (s : String)
  | array (items : List Value)
  | object (entries : List (String × Value))
  deriving Inhabited

/-- The kinds of values. -/
inductive Kind where
  | null
  | bool
  | int
  | float
  | string
  | array
  | object
  deriving DecidableEq, Repr

/-- What a kind is called in messages. -/
def Kind.name : Kind → String
  | .null => "null"
  | .bool => "bool"
  | .int => "int"
  | .float => "float"
  | .string => "string"
  | .array => "array"
  | .object => "object"

namespace Value

def kind : Value → Kind
  | .null => .null
  | .bool _ => .bool
  | .int _ => .int
  | .float _ => .float
  | .string _ => .string
  | .array _ => .array
  | .object _ => .object

def isNull : Value → Bool
  | .null => true
  | _ => false

def string? : Value → Option String
  | .string s => some s
  | _ => none

def items? : Value → Option (List Value)
  | .array items => some items
  | _ => none

def entries? : Value → Option (List (String × Value))
  | .object entries => some entries
  | _ => none

/-- The value at a path of keys inside a value. -/
def at? : Value → List String → Option Value
  | v, [] => some v
  | v, key :: path => (v.entries?.bind (·.lookup key)).bind (at? · path)

theorem at?_append (v : Value) (path tail : List String) :
    v.at? (path ++ tail) = (v.at? path).bind (·.at? tail) := by
  induction path generalizing v with
  | nil => rfl
  | cons key rest ih =>
    simp only [List.cons_append, at?]
    cases v.entries?.bind (·.lookup key) with
    | none => rfl
    | some inner => exact ih inner

end Value

end ConfigLang
