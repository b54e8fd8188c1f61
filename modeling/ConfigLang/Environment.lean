import ConfigLang.Text.Split
import ConfigLang.Value.Basic

set_option autoImplicit false

/-! # The environment

Named texts from outside the document. A reference to a variable stands at the beginning of a text;
what follows it does not count. -/

namespace ConfigLang

/-- The variables that a document can refer to. -/
structure Environment where
  vars : List (String × String) := []

namespace Environment

/-- The environment that setting variables one after another leaves. -/
def ofPairs (pairs : List (String × String)) : Environment :=
  ⟨Entries.ofPairs pairs⟩

def get? (env : Environment) (name : String) : Option String :=
  env.vars.lookup name

def size (env : Environment) : Nat :=
  env.vars.length

/-- How a reference to a variable begins. -/
def opening : List Char := "$ENV\x7b".toList

/-- The variable that a text refers to. -/
def reference? (text : List Char) : Option (List Char) :=
  match (Text.behind? opening text).bind (Text.cutFirst? '\x7d') with
  | some (name, _) => if name.isEmpty then none else some name
  | none => none

/-- What a reference stands for: the text of its variable, or null if that is not set. -/
def expand? (env : Environment) (text : List Char) : Option Value :=
  (reference? text).map fun name =>
    match env.get? (String.ofList name) with
    | some held => .string held
    | none => .null

theorem expand?_of_head_ne (env : Environment) {text : List Char}
    (h : ∀ c ∈ text.head?, c ≠ '$') : env.expand? text = none := by
  have hlead : opening.isPrefixOf text = false := by
    cases text with
    | nil => rfl
    | cons c rest =>
      have hc : ('$' == c) = false := by simpa using fun heq => h c rfl heq.symm
      show ('$' == c && _) = false
      rw [hc, Bool.false_and]
  simp [expand?, reference?, Text.behind?, hlead]

end Environment

end ConfigLang
