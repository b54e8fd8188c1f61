import ConfigLang.Number.FloatText
import ConfigLang.Value.Basic

set_option autoImplicit false

/-! # Writing JSON

A value is written as compact JSON, the entries of an object in their order. A float that is not
finite has no JSON form and is written as null. -/

namespace ConfigLang.Json

/-! ## Strings -/

/-- A character inside a JSON string: the quote, the backslash and the control characters are
    escaped, and nothing else. -/
def escapeChar (c : Char) : List Char :=
  match c with
  | '"' => ['\\', '"']
  | '\\' => ['\\', '\\']
  | '\x08' => ['\\', 'b']
  | '\x0c' => ['\\', 'f']
  | '\n' => ['\\', 'n']
  | '\r' => ['\\', 'r']
  | '\t' => ['\\', 't']
  | c =>
    if c.toNat < 0x20 then
      ['\\', 'u', '0', '0', Nat.digitChar (c.toNat / 16), Nat.digitChar (c.toNat % 16)]
    else [c]

def writeString (s : String) : List Char :=
  '"' :: s.toList.flatMap escapeChar ++ ['"']

/-! ## Values -/

def writeFloat (x : Float) : List Char :=
  if Number.isFinite x then Number.floatText .nested x else "null".toList

def writeBool (b : Bool) : List Char :=
  if b then "true".toList else "false".toList

mutual

/-- The compact JSON of a value. -/
def write : Value → List Char
  | .null => "null".toList
  | .bool b => writeBool b
  | .int n => Number.integerText n.toInt
  | .float x => writeFloat x
  | .string s => writeString s
  | .array items => '[' :: [','].intercalate (writeItems items) ++ [']']
  | .object entries => '\x7b' :: [','].intercalate (writeEntries entries) ++ ['\x7d']

def writeItems : List Value → List (List Char)
  | [] => []
  | item :: rest => write item :: writeItems rest

def writeEntries : List (String × Value) → List (List Char)
  | [] => []
  | (key, held) :: rest => (writeString key ++ ':' :: write held) :: writeEntries rest

end

theorem writeItems_eq_map (items : List Value) : writeItems items = items.map write := by
  induction items with
  | nil => rfl
  | cons item rest ih => rw [writeItems, ih, List.map_cons]

theorem writeEntries_eq_map (entries : List (String × Value)) :
    writeEntries entries
      = entries.map fun entry => writeString entry.1 ++ ':' :: write entry.2 := by
  induction entries with
  | nil => rfl
  | cons entry rest ih => rw [writeEntries, ih, List.map_cons]

/-! ## What JSON keeps of a value -/

mutual

/-- The value with null for every float that has no JSON form. -/
def project : Value → Value
  | .float x => if Number.isFinite x then .float x else .null
  | .array items => .array (projectItems items)
  | .object entries => .object (projectEntries entries)
  | v => v

def projectItems : List Value → List Value
  | [] => []
  | item :: rest => project item :: projectItems rest

def projectEntries : List (String × Value) → List (String × Value)
  | [] => []
  | (key, held) :: rest => (key, project held) :: projectEntries rest

end

theorem projectItems_eq_map (items : List Value) : projectItems items = items.map project := by
  induction items with
  | nil => rfl
  | cons item rest ih => rw [projectItems, ih, List.map_cons]

end ConfigLang.Json
