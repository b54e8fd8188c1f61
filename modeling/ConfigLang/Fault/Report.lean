import ConfigLang.Number.Integer

set_option autoImplicit false

/-! # Reports

A report is what a user sees of a fault: its kind, a message, perhaps a hint, perhaps a code. -/

namespace ConfigLang

/-- The kinds of faults; a fault of a file names the file. -/
inductive FaultKind where
  | malformed
  | unresolved
  | mistyped
  | file (path : String)
  deriving DecidableEq, Repr

namespace FaultKind

/-- The short name of a kind. -/
def name : FaultKind → String
  | .malformed => "syntax"
  | .unresolved => "reference"
  | .mistyped => "type"
  | .file _ => "file"

/-- How a report of the kind begins. -/
def heading : FaultKind → String
  | .malformed => "[UCL] Syntax Error: "
  | .unresolved => "[UCL] Reference Error: "
  | .mistyped => "[UCL] Type Error: "
  | .file path => "[UCL] File Error '" ++ path ++ "': "

/-- The hundreds of the codes of the kind. -/
def century : FaultKind → Nat
  | .malformed => 2
  | .unresolved => 5
  | .mistyped => 4
  | .file _ => 3

end FaultKind

structure Report where
  kind : FaultKind
  message : String
  hint? : Option String
  code? : Option Nat
  deriving DecidableEq, Repr

namespace Report

/-- The report with another hint. -/
def withHint (r : Report) (hint : String) : Report :=
  { r with hint? := some hint }

/-- The whole report in one text. -/
def text (r : Report) : String :=
  r.kind.heading ++ r.message
    ++ (match r.hint? with
      | some hint => " Hint: " ++ hint
      | none => "")
    ++ (match r.code? with
      | some code => " Code: " ++ String.ofList (Number.digitsOf code)
      | none => "")

end Report

end ConfigLang
