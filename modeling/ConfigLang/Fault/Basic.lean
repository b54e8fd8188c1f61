import ConfigLang.Fault.Cause
import ConfigLang.Fault.Report

set_option autoImplicit false

/-! # Faults

A fault is a cause of one of four kinds. A value of the wrong kind may have a place: the line of the
document that defines it. Main statement: the code of a fault tells its kind
(`code_div_hundred`). -/

namespace ConfigLang

/-- A line of a document, counted from one. -/
structure Place where
  line : Nat
  snippet : String
  deriving DecidableEq, Repr

/-- Why an operation of this library gives no result. -/
inductive Fault where
  | malformed (cause : Malformed)
  | unresolved (cause : Unresolved)
  | mistyped (cause : Mistyped)
  | mistypedAt (place : Place) (cause : Mistyped)
  | file (path : String) (cause : BadFile)

namespace Fault

/-- The words that point at a place. -/
def placeText (place : Place) : String :=
  " (line " ++ String.ofList (Number.digitsOf place.line) ++ ")\n  → " ++ place.snippet

def kind : Fault → FaultKind
  | .malformed _ => .malformed
  | .unresolved _ => .unresolved
  | .mistyped _ => .mistyped
  | .mistypedAt _ _ => .mistyped
  | .file path _ => .file path

def message : Fault → String
  | .malformed cause => cause.message
  | .unresolved cause => cause.message
  | .mistyped cause => cause.message
  | .mistypedAt place cause => cause.message ++ placeText place
  | .file _ cause => cause.message

def hint? : Fault → Option String
  | .malformed cause => cause.hint?
  | .unresolved cause => cause.hint?
  | .mistyped cause => cause.hint?
  | .mistypedAt _ cause => cause.hint?
  | .file _ cause => some cause.hint

def code : Fault → Nat
  | .malformed cause => cause.code
  | .unresolved cause => cause.code
  | .mistyped cause => cause.code
  | .mistypedAt _ cause => cause.code
  | .file _ cause => cause.code

/-- What a user sees of a fault. -/
def report (f : Fault) : Report where
  kind := f.kind
  message := f.message
  hint? := f.hint?
  code? := some f.code

/-- The hundreds of a fault's code are those of its kind. -/
theorem code_div_hundred (f : Fault) : f.code / 100 = f.kind.century := by
  cases f with
  | malformed cause => exact cause.code_div_hundred
  | unresolved cause => exact cause.code_div_hundred
  | mistyped cause => exact cause.code_div_hundred
  | mistypedAt place cause => exact cause.code_div_hundred
  | file path cause => exact cause.code_div_hundred

end Fault

section

variable {ε α β : Type} {x : Except ε α}

/-- What goes on from a result has one only if there is something to go on from. -/
theorem exists_of_bind {next : α → Except ε β} {b : β} (h : x.bind next = .ok b) :
    ∃ a, x = .ok a ∧ next a = .ok b := by
  cases x with
  | error f => exact absurd h (by simp [Except.bind])
  | ok a => exact ⟨a, rfl, h⟩

theorem exists_of_map {f : α → β} {b : β} (h : x.map f = .ok b) : ∃ a, x = .ok a ∧ f a = b := by
  cases x with
  | error f => exact absurd h (by simp [Except.map])
  | ok a => exact ⟨a, rfl, Except.ok.inj h⟩

end

end ConfigLang
