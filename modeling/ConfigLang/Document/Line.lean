import ConfigLang.Fault.Basic
import ConfigLang.Scan.Cut
import ConfigLang.Text.Split

set_option autoImplicit false

/-! # Lines of a document

A line, trimmed, is blank, a section header in brackets, or a statement `key = value`. A line without
an equals sign that holds a bracket, brace, comma or quote is taken for a left-over of a value that
spans lines and says nothing. -/

namespace ConfigLang.Document

/-- The name in a section header. -/
def header? (line : List Char) : Option (List Char) :=
  (Text.between? '[' ']' line).map Text.trim

/-- Whether a section is the one that holds defaults. -/
def isDefaultsName (name : List Char) : Bool :=
  String.ofList (name.map Char.toLower) == "defaults"

/-- The characters that mark a line without an equals sign as a left-over. -/
def isFragmentChar (c : Char) : Bool :=
  c == '[' || c == ']' || c == '\x7b' || c == '\x7d' || c == ',' || Text.isQuote c

/-- The key and the text of the value of a line with an equals sign. -/
def splitStatement (line : List Char) : Except Malformed (String × List Char) :=
  match Scan.keyValue? line with
  | none => .error (.quotedEquals (String.ofList line))
  | some (key, value) =>
    if key.isEmpty then .error (.missingKey (String.ofList line))
    else .ok (String.ofList key, value)

/-- What a line other than a blank one or a header says: a statement, or nothing. -/
def statement? (line : List Char) : Except Malformed (Option (String × List Char)) :=
  if line.contains '=' then (splitStatement line).map some
  else if line.any isFragmentChar then .ok none
  else .error (.noEquals (String.ofList line))

end ConfigLang.Document
