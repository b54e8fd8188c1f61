import ConfigLang.Json.Writer

set_option autoImplicit false

/-! # The text of a value

How a value is shown in messages and joined to strings: a string without quotes, an array or object
as JSON, a float in its standard form. -/

namespace ConfigLang.Value

/-- The text that shows a value. -/
def text : Value → List Char
  | .null => "null".toList
  | .bool b => Json.writeBool b
  | .int n => Number.integerText n.toInt
  | .float x => Number.floatText .standard x
  | .string s => s.toList
  | .array items => Json.write (.array items)
  | .object entries => Json.write (.object entries)

/-- The text that shows a value, as a string. -/
def shown (v : Value) : String :=
  String.ofList v.text

end ConfigLang.Value
