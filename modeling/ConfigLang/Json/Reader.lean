import ConfigLang.Json.Token

set_option autoImplicit false

/-! # Reading JSON

The reader goes once through the tokens and keeps the arrays and objects that are open. At most 127
of them may be open at a time. A key that an object repeats keeps its first place and takes its last
value. -/

namespace ConfigLang.Json

/-- An open array with the items before the current one, in reverse; or an open object with the
    entries before the current one and its key. -/
inductive Frame where
  | array (items : List Value)
  | object (entries : List (String × Value)) (key : String)

/-- The most arrays and objects that may be open. -/
def depthLimit : Nat := 127

mutual

/-- Go on where a value is expected. -/
def readValue? (opened : List Frame) : List Token → Option Value
  | .scalar v :: rest => giveValue? opened v rest
  | .string s :: rest => giveValue? opened (.string (String.ofList s)) rest
  | .openBracket :: .closeBracket :: rest =>
    if opened.length < depthLimit then giveValue? opened (.array []) rest else none
  | .openBrace :: .closeBrace :: rest =>
    if opened.length < depthLimit then giveValue? opened (.object []) rest else none
  | .openBracket :: rest =>
    if opened.length < depthLimit then readValue? (.array [] :: opened) rest else none
  | .openBrace :: .string key :: .colon :: rest =>
    if opened.length < depthLimit then readValue? (.object [] (String.ofList key) :: opened) rest
    else none
  | _ => none

/-- Go on behind a value. -/
def giveValue? (opened : List Frame) (v : Value) : List Token → Option Value
  | [] => if opened.isEmpty then some v else none
  | .comma :: rest =>
    match opened, rest with
    | .array items :: outer, rest => readValue? (.array (v :: items) :: outer) rest
    | .object entries key :: outer, .string next :: .colon :: rest =>
      readValue? (.object (Entries.insert key v entries) (String.ofList next) :: outer) rest
    | _, _ => none
  | .closeBracket :: rest =>
    match opened with
    | .array items :: outer => giveValue? outer (.array (v :: items).reverse) rest
    | _ => none
  | .closeBrace :: rest =>
    match opened with
    | .object entries key :: outer =>
      giveValue? outer (.object (Entries.insert key v entries)) rest
    | _ => none
  | _ => none

end

/-- The value of a JSON text. -/
def read? (text : List Char) : Option Value :=
  (tokens? text).bind (readValue? [])

end ConfigLang.Json
