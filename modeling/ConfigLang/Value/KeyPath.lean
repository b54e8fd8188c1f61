import ConfigLang.Text.Blank
import ConfigLang.Text.Split

set_option autoImplicit false

/-! # Paths of keys

A path names a value by the keys that lead to it; its text has points between the keys. -/

namespace ConfigLang.KeyPath

/-- The keys between the points of a text, as they are. -/
def ofText (text : List Char) : List String :=
  (Text.splitOn '.' text).map String.ofList

/-- The keys between the points of a section header, each trimmed. -/
def ofHeader (text : List Char) : List String :=
  (Text.splitOn '.' text).map fun key => String.ofList (Text.trim key)

/-- The text of a path. -/
def text (path : List String) : String :=
  ".".intercalate path

end ConfigLang.KeyPath
