import ConfigLang.Value.Text

set_option autoImplicit false

/-! # Causes of faults

One type for each kind of fault, with a constructor for each cause. The wording, the hint and the
code of a cause are written here and nowhere else. -/

namespace ConfigLang

/-! ## Malformed text -/

/-- Text that does not follow the grammar of configurations. -/
inductive Malformed where
  | noEquals (line : String)
  | quotedEquals (line : String)
  | missingKey (line : String)
  | headerAfterDefaults (line : String)
  | notJson (text : String)
  | parentheses (expr : String)
  | unexpectedOperator (symbol : Char) (expr : String)
  | missingOperator (operand expr : String)
  | emptyExpression (expr : String)
  | danglingOperator (expr : String)
  | brackets (text : String)
  | includeForm (line : String)
  | emptyPath
  | endlessGroups (expr : String)
  deriving DecidableEq, Repr

namespace Malformed

def message : Malformed → String
  | .noEquals line => "Invalid syntax: line without equals sign: " ++ line
  | .quotedEquals line => "Invalid key-value syntax: " ++ line
  | .missingKey line => "Missing key before '=': " ++ line
  | .headerAfterDefaults line => "Section header after [Defaults]: " ++ line
  | .notJson text => "Invalid JSON object: <json> in '" ++ text ++ "'"
  | .parentheses expr => "Mismatched parentheses in expression: " ++ expr
  | .unexpectedOperator symbol expr =>
    "Unexpected operator '" ++ String.singleton symbol ++ "' in expression: " ++ expr
  | .missingOperator operand expr =>
    "Missing operator before '" ++ operand ++ "' in expression: " ++ expr
  | .emptyExpression expr => "Empty expression: '" ++ expr ++ "'"
  | .danglingOperator expr => "Expression ends with an operator: " ++ expr
  | .brackets text => "Mismatched brackets in reference: " ++ text
  | .includeForm line => "Invalid include syntax: " ++ line
  | .emptyPath => "Cannot write a value at an empty path"
  | .endlessGroups expr => "Groups do not come to an end in expression: " ++ expr

def hint? : Malformed → Option String
  | .noEquals _ => some "Statements take the form key = value"
  | .quotedEquals _ => some "The '=' must not be inside quotes"
  | .headerAfterDefaults _ => some "The [Defaults] section must be the last section in the file"
  | .notJson _ =>
    some "Object literals must be standard JSON: double-quoted keys, no trailing commas"
  | .parentheses _ => some "Close every '(' with ')'"
  | .missingOperator _ _ => some "Quote text that contains spaces"
  | .brackets _ => some "Close every '[' with ']'"
  | .includeForm _ => some "Use include \"path/to/file.ucl\""
  | _ => none

def code : Malformed → Nat
  | .noEquals _ => 201
  | .quotedEquals _ => 202
  | .missingKey _ => 203
  | .headerAfterDefaults _ => 204
  | .notJson _ => 206
  | .parentheses _ => 207
  | .unexpectedOperator _ _ => 208
  | .missingOperator _ _ => 209
  | .emptyExpression _ => 210
  | .danglingOperator _ => 211
  | .brackets _ => 212
  | .includeForm _ => 213
  | .emptyPath => 215
  | .endlessGroups _ => 216

theorem code_div_hundred (cause : Malformed) : cause.code / 100 = 2 := by
  cases cause <;> simp [code]

end Malformed

/-! ## Names that lead nowhere -/

/-- A reference or a path that leads to no value. -/
inductive Unresolved where
  | unknownReference (path : String)
  | unknownPath (path : String)
  | indexBeyondEnd (index : String) (length : Nat) (text : String)
  | indexOfOther (kind : Kind) (index text : String)
  | keyOfOther (key : String) (kind : Kind) (text : String)
  | missingKey (key text : String)
  deriving DecidableEq, Repr

namespace Unresolved

def message : Unresolved → String
  | .unknownReference path => "Cannot resolve reference: " ++ path
  | .unknownPath path => "Path '" ++ path ++ "' not found in configuration"
  | .indexBeyondEnd index length text =>
    "Array index out of bounds: " ++ index ++ " (length "
      ++ String.ofList (Number.digitsOf length) ++ ") in " ++ text
  | .indexOfOther kind index text =>
    "Cannot index a " ++ kind.name ++ " with [" ++ index ++ "] in " ++ text
  | .keyOfOther key kind text =>
    "Cannot read key '" ++ key ++ "' from a " ++ kind.name ++ " in " ++ text
  | .missingKey key text => "Object key not found: '" ++ key ++ "' in " ++ text

def hint? : Unresolved → Option String
  | .unknownReference _ => some "References can only see keys defined earlier in the document"
  | .unknownPath _ => some "Check that the path exists in your config file"
  | _ => none

def code : Unresolved → Nat
  | .unknownReference _ => 501
  | .unknownPath _ => 501
  | .indexBeyondEnd _ _ _ => 502
  | .indexOfOther _ _ _ => 503
  | .keyOfOther _ _ _ => 504
  | .missingKey _ _ => 505

theorem code_div_hundred (cause : Unresolved) : cause.code / 100 = 5 := by
  cases cause <;> simp [code]

end Unresolved

/-! ## Values of the wrong kind -/

/-- What a typed reader asks for. -/
inductive Wanted where
  | string
  | number
  | integer
  | wholeNumber
  | boolean
  | array
  | object
  deriving DecidableEq, Repr

namespace Wanted

def name : Wanted → String
  | .string => "string"
  | .number => "number"
  | .integer => "integer"
  | .wholeNumber => "integer"
  | .boolean => "boolean"
  | .array => "array"
  | .object => "object"

def hint : Wanted → String
  | .string => "Quote the value in your config"
  | .number => "Use a number value in your config"
  | .integer => "Use a number value in your config"
  | .wholeNumber => "Use a whole number, or convert with .int in your config"
  | .boolean => "Use true or false, or convert with .bool in your config"
  | .array => "Use [a, b, c] in your config"
  | .object => "Use a section or a \x7b...\x7d literal"

def code : Wanted → Nat
  | .string => 420
  | .number => 421
  | .integer => 421
  | .wholeNumber => 421
  | .boolean => 423
  | .array => 424
  | .object => 425

end Wanted

/-- A value of another kind than its use allows. -/
inductive Mistyped where
  | toInt (v : Value)
  | toFloat (v : Value)
  | unknownWord (v : Value)
  | toBool (v : Value)
  | notNumber (v : Value)
  | divisionByZero (lhs rhs : Value)
  | moduloByZero (lhs rhs : Value)
  | unknownTarget (name : String)
  | blockedPath (last path : String) (kind : Kind)
  | wanted (what : Wanted) (v : Value)
  | outOfRange (n : Int) (type : String) (low high : Int)
  | noKeys (path : String) (kind : Kind)
  | undecodable (path : String)

namespace Mistyped

private def conversion (v : Value) (target : String) : String :=
  "Cannot convert " ++ v.kind.name ++ " '" ++ v.shown ++ "' to " ++ target

private def integer (n : Int) : String :=
  String.ofList (Number.integerText n)

def message : Mistyped → String
  | .toInt v => conversion v "int"
  | .toFloat v => conversion v "float"
  | .unknownWord v => conversion v "bool"
  | .toBool v => conversion v "bool"
  | .notNumber v => "Cannot convert '" ++ v.shown ++ "' to number"
  | .divisionByZero lhs rhs => "Division by zero: " ++ lhs.shown ++ " / " ++ rhs.shown
  | .moduloByZero lhs rhs => "Modulo by zero: " ++ lhs.shown ++ " % " ++ rhs.shown
  | .unknownTarget name => "Unknown target type: " ++ name
  | .blockedPath last path kind =>
    "Cannot create '" ++ last ++ "' under '" ++ path ++ "': it holds a " ++ kind.name
      ++ ", not an object"
  | .wanted what v => "Expected " ++ what.name ++ ", got " ++ v.kind.name ++ " " ++ v.shown
  | .outOfRange n type _ _ => "Number " ++ integer n ++ " out of range for " ++ type
  | .noKeys path kind => "Path '" ++ path ++ "' is a " ++ kind.name ++ ", not an object"
  | .undecodable path => "Cannot deserialize '" ++ path ++ "': <serde>"

def hint? : Mistyped → Option String
  | .unknownWord _ => some "Recognised words are true/false, yes/no and 1/0"
  | .notNumber _ => some "Arithmetic needs numeric operands; only + accepts strings"
  | .blockedPath _ _ _ => some "A key and a section cannot share the same path"
  | .wanted what _ => some what.hint
  | .outOfRange _ _ low high =>
    some ("Use a number between " ++ integer low ++ " and " ++ integer high)
  | .noKeys _ _ => some "Only sections and object literals have keys"
  | _ => none

def code : Mistyped → Nat
  | .toInt _ => 401
  | .toFloat _ => 402
  | .unknownWord _ => 403
  | .toBool _ => 404
  | .notNumber _ => 405
  | .divisionByZero _ _ => 406
  | .moduloByZero _ _ => 407
  | .unknownTarget _ => 409
  | .blockedPath _ _ _ => 410
  | .wanted what _ => what.code
  | .outOfRange _ _ _ _ => 422
  | .noKeys _ _ => 425
  | .undecodable _ => 426

theorem code_div_hundred (cause : Mistyped) : cause.code / 100 = 4 := by
  cases cause with
  | wanted what v => cases what <;> simp [code, Wanted.code]
  | _ => simp [code]

end Mistyped

/-! ## Files -/

/-- Why a file cannot be read. -/
inductive ReadFailure where
  | notFound
  | notDirectory
  | isDirectory
  | nameTooLong
  | nulInName
  | notText
  deriving DecidableEq, Repr

def ReadFailure.text : ReadFailure → String
  | .notFound => "No such file or directory (os error 2)"
  | .notDirectory => "Not a directory (os error 20)"
  | .isDirectory => "Is a directory (os error 21)"
  | .nameTooLong => "File name too long (os error 36)"
  | .nulInName => "file name contained an unexpected NUL byte"
  | .notText => "stream did not contain valid UTF-8"

/-- What is wrong with a file. -/
inductive BadFile where
  | unreadable (why : ReadFailure)
  | missingInclude (raw : String)
  | circularInclude (raw : String)
  | unreadableInclude (why : ReadFailure)
  | unknownHome
  | neither (primary fallback : String) (last : BadFile)
  deriving DecidableEq, Repr

namespace BadFile

def message : BadFile → String
  | .unreadable why => "Failed to read file: " ++ why.text
  | .missingInclude raw => "Include file not found: " ++ raw
  | .circularInclude raw => "Circular include of '" ++ raw ++ "'"
  | .unreadableInclude why => "Failed to read include file: " ++ why.text
  | .unknownHome => "Cannot expand '~': home directory is unknown"
  | .neither primary fallback last =>
    "Failed to load config from primary path '" ++ primary ++ "' or fallback path '" ++ fallback
      ++ "': " ++ last.message

def hint : BadFile → String
  | .unreadable _ => "Check that the file exists and is readable"
  | .missingInclude _ => "Check file path and permissions"
  | .circularInclude _ => "A file cannot include itself, directly or through other includes"
  | .unreadableInclude _ => "Check file path and permissions"
  | .unknownHome => "Use an absolute path in the include"
  | .neither _ _ _ => "Check that at least one of the config files exists"

def code : BadFile → Nat
  | .unreadable _ => 301
  | .missingInclude _ => 302
  | .circularInclude _ => 303
  | .unreadableInclude _ => 304
  | .unknownHome => 305
  | .neither _ _ _ => 301

theorem code_div_hundred (cause : BadFile) : cause.code / 100 = 3 := by
  cases cause <;> simp [code]

end BadFile

end ConfigLang
