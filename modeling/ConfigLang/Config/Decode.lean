import ConfigLang.Config.Typed
import ConfigLang.Json.Writer

set_option autoImplicit false

/-! # Decoders

A decoder takes the JSON form of a value to a type. It is stricter than a typed reader: a float never
gives an integer. A record is decoded from an object by the names of its fields, or from an array
that holds all its fields in order. -/

namespace ConfigLang.Decode

/-- A way to decode the JSON form of values as a type. -/
abbrev Decoder (α : Type) := Value → Option α

/-- Every value as it is. -/
def any : Decoder Value := some

def string : Decoder String
  | .string s => some s
  | _ => none

def boolean : Decoder Bool
  | .bool b => some b
  | _ => none

def int64 : Decoder Int64
  | .int n => some n
  | _ => none

def ranged (range : Typed.IntRange) : Decoder (Typed.Ranged range)
  | .int n =>
    if h : range.low ≤ n.toInt ∧ n.toInt ≤ range.high then some ⟨n.toInt, h⟩ else none
  | _ => none

def float : Decoder Float
  | .float x => some x
  | .int n => some (Number.ofInt n.toInt)
  | _ => none

def list {α : Type} (item : Decoder α) : Decoder (List α)
  | .array items => items.mapM item
  | _ => none

def optional {α : Type} (item : Decoder α) : Decoder (Option α)
  | .null => some none
  | v => (item v).map some

/-- An object whose values are all of one type. -/
def map {α : Type} (held : Decoder α) : Decoder (List (String × α))
  | .object entries => entries.mapM fun (key, v) => (held v).map fun x => (key, x)
  | _ => none

/-! ## Records -/

/-- The fields of a record in the order of `names`, where an object may lack some. -/
def fields (names : List String) : Decoder (List (Option Value))
  | .object entries => some (names.map fun name => entries.lookup name)
  | .array items => if items.length = names.length then some (items.map some) else none
  | _ => none

/-- A field that must be there. -/
def required {α : Type} (item : Decoder α) (field? : Option Value) : Option α :=
  field?.bind item

/-- A field that may be missing or null. -/
def defaulted {α : Type} (item : Decoder α) : Option Value → Option (Option α)
  | none => some none
  | some v => optional item v

end ConfigLang.Decode
