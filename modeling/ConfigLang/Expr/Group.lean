import ConfigLang.Expr.Chain
import ConfigLang.Number.Power
import ConfigLang.Scan.Cut
import ConfigLang.Text.Split

set_option autoImplicit false

/-! # Groups

A group is what stands between parentheses. The last opening parenthesis and the first closing one
behind it enclose a group without groups inside; the text of its value takes its place, until no
opening parenthesis is left. Parentheses count inside quotes too, so a string may bring in new
groups, and some expressions never come to an end. The number of replacements is bounded, by far more
than any evaluation that comes to an end can get through. -/

namespace ConfigLang.Expr

open scoped CorePower

/-- The text that stands for a value in place of its group. -/
def groupText : Value → List Char
  | .string s => Text.quote s.toList
  | .float x => Number.floatText .plain x
  | v => v.text

/-- The groups that may be replaced beyond those that an expression itself writes. A few strings that
    name one another twice each already bring in millions. -/
def groupsFromStrings : Nat := 2 ^ (62 : Nat)

/-- Replace groups, the innermost last one first, while any is left; `limit` bounds their number. -/
def replaceGroups (flat : List Char → Except Fault Value) (limit : Nat) (expr : List Char) :
    Except Fault (List Char) :=
  match Text.cutLast? '(' expr with
  | none => .ok expr
  | some (before, rest) =>
    match Text.cutFirst? ')' rest with
    | none => .error (.malformed (.parentheses (String.ofList expr)))
    | some (inner, after) =>
      match limit with
      | 0 => .error (.malformed (.endlessGroups (String.ofList expr)))
      | limit + 1 => do
        let v ← flat inner
        replaceGroups flat limit (before ++ groupText v ++ after)

/-- What stands before, in and behind the group of a text that is replaced first. -/
structure LastGroup (text before inner after : List Char) : Prop where
  text_eq : text = before ++ '(' :: (inner ++ ')' :: after)
  open_not_mem_inner : '(' ∉ inner
  close_not_mem_inner : ')' ∉ inner
  open_not_mem_after : '(' ∉ after

namespace LastGroup

variable {text before inner after : List Char}

theorem append_left (h : LastGroup text before inner after) (front : List Char) :
    LastGroup (front ++ text) (front ++ before) inner after where
  text_eq := by rw [h.text_eq, List.append_assoc]
  open_not_mem_inner := h.open_not_mem_inner
  close_not_mem_inner := h.close_not_mem_inner
  open_not_mem_after := h.open_not_mem_after

theorem append_right (h : LastGroup text before inner after) {back : List Char}
    (hback : '(' ∉ back) : LastGroup (text ++ back) before inner (after ++ back) where
  text_eq := by rw [h.text_eq]; simp
  open_not_mem_inner := h.open_not_mem_inner
  close_not_mem_inner := h.close_not_mem_inner
  open_not_mem_after := by
    rw [List.mem_append, not_or]
    exact ⟨h.open_not_mem_after, hback⟩

/-- The group is where the last opening parenthesis is. -/
theorem cutLast?_eq (h : LastGroup text before inner after) :
    Text.cutLast? '(' text = some (before, inner ++ ')' :: after) := by
  have hrest : '(' ∉ inner ++ ')' :: after := by
    simp only [List.mem_append, List.mem_cons, not_or]
    exact ⟨h.open_not_mem_inner, by decide, h.open_not_mem_after⟩
  rw [h.text_eq, Text.cutLast?_append_cons hrest]

theorem cutFirst?_eq (h : LastGroup text before inner after) :
    Text.cutFirst? ')' (inner ++ ')' :: after) = some (inner, after) :=
  Text.cutFirst?_append_cons h.close_not_mem_inner after

/-- The last group is replaced by the text of its value. -/
theorem replaceGroups_eq (h : LastGroup text before inner after)
    (flat : List Char → Except Fault Value) (limit : Nat) :
    replaceGroups flat (limit + 1) text = (flat inner).bind fun v =>
      replaceGroups flat limit (before ++ groupText v ++ after) := by
  rw [replaceGroups, h.cutLast?_eq]
  dsimp only
  rw [h.cutFirst?_eq]
  rfl

end LastGroup

theorem replaceGroups_of_not_mem {text : List Char} (h : '(' ∉ text)
    (flat : List Char → Except Fault Value) (limit : Nat) :
    replaceGroups flat limit text = .ok text := by
  rw [replaceGroups, Text.cutLast?_of_not_mem h]

/-- The value of an expression, where `resolve` gives the values of operands. -/
def evaluate (resolve : List Char → Except Fault Value) (expr : List Char) :
    Except Fault Value := do
  let flat := evaluateFlat resolve
  let reduced ← replaceGroups flat (expr.count '(' + groupsFromStrings) expr
  if (Scan.cutUnquoted? (· == ')') reduced).isSome then
    throw (.malformed (.parentheses (String.ofList reduced)))
  else flat reduced

end ConfigLang.Expr
