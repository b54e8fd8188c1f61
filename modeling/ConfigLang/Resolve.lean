import ConfigLang.Convert
import ConfigLang.Expr.Group
import ConfigLang.Literal
import ConfigLang.Reference

set_option autoImplicit false

/-! # Resolving texts to values

The first rule that fits a text gives its value: nothing at all is null, a reference to a variable
is the variable's text, a suffix converts the value of what stands before it, an operator makes the
text an expression, a dotted or plain name is a reference, and what is left is a literal. The rules
from suffix to reference do not apply to texts that describe a value by themselves.

The items of an array are resolved by the same rules. An array that is an operand has no operator
outside quotes, so its items are never expressions and resolving them comes to an end. -/

namespace ConfigLang.Scope

/-! ## The rules -/

/-- The text before a conversion suffix, and its target. -/
def conversion? (text : List Char) : Option (List Char × Target) :=
  (Text.cutLast? '.' text).bind fun (base, suffix) =>
    (Target.ofName? suffix).map fun target => (base, target)

theorem length_conversion? {text base : List Char} {target : Target}
    (h : conversion? text = some (base, target)) : base.length < text.length := by
  simp only [conversion?, Option.bind_eq_some_iff, Option.map_eq_some_iff, Prod.exists,
    Prod.mk.injEq] at h
  obtain ⟨before, suffix, hcut, _, _, rfl, rfl⟩ := h
  have := Text.length_cutLast? hcut
  omega

/-- Resolve a text, where `expression?` evaluates expressions if there can be any. -/
def resolveBy (expression? : Option (List Char → Except Fault Value)) (scope : Scope)
    (raw : List Char) : Except Fault Value :=
  if (Text.trim raw).isEmpty then .ok .null
  else
    match scope.env.expand? (Text.trim raw) with
    | some v => .ok v
    | none =>
      let simple := isSimpleLiteral (Text.trim raw)
      match _hconv : if simple then none else conversion? (Text.trim raw) with
      | some (base, target) => do
        let v ← resolveBy expression? scope base
        v.convert target
      | none =>
        match if !simple && hasOperator (Text.trim raw) then expression? else none with
        | some evaluate => evaluate (Text.trim raw)
        | none =>
          if isReference (Text.trim raw) then scope.resolveReference (Text.trim raw)
          else
            match _hlit : Literal.ofText (Text.trim raw) with
            | .error f => .error f
            | .ok (.value v) => .ok v
            | .ok (.array items) => do
              let values ← items.attach.mapM fun ⟨item, _⟩ => resolveBy expression? scope item
              return .array values
termination_by raw.length
decreasing_by
  · have htrim := Text.length_trim_le raw
    split at _hconv
    · simp at _hconv
    · have := length_conversion? _hconv
      omega
  · have htrim := Text.length_trim_le raw
    have := Literal.length_lt_of_ofText _hlit ‹_›
    omega

/-- The rules of resolving in their order, where the items of an array are resolved in turn. -/
theorem resolveBy_eq (expression? : Option (List Char → Except Fault Value)) (scope : Scope)
    (raw : List Char) :
    resolveBy expression? scope raw
      = if (Text.trim raw).isEmpty then .ok .null
        else
          match scope.env.expand? (Text.trim raw) with
          | some v => .ok v
          | none =>
            match (if isSimpleLiteral (Text.trim raw) then none else conversion? (Text.trim raw)) with
            | some (base, target) => do
              let v ← resolveBy expression? scope base
              v.convert target
            | none =>
              match (if !isSimpleLiteral (Text.trim raw) && hasOperator (Text.trim raw)
                then expression? else none) with
              | some evaluate => evaluate (Text.trim raw)
              | none =>
                if isReference (Text.trim raw) then scope.resolveReference (Text.trim raw)
                else
                  Literal.ofText (Text.trim raw) >>= (·.finish (resolveBy expression? scope)) := by
  have hitems : ∀ items : List (List Char),
      (items.attach.mapM fun ⟨item, _⟩ => resolveBy expression? scope item)
        = items.mapM (resolveBy expression? scope) := by
    intro items
    rw [List.mapM_subtype (g := resolveBy expression? scope) fun _ _ => rfl, List.unattach_attach]
  rw [resolveBy]
  dsimp only
  split
  · rfl
  · split
    · rfl
    · split
      next hconv => rw [hconv]
      next hconv =>
        rw [hconv]
        dsimp only
        split
        · rfl
        · split
          · rfl
          · split
            next hlit => rw [hlit]; rfl
            next hlit => rw [hlit]; rfl
            next items hlit =>
              rw [hlit, hitems]
              show _ = (items.mapM (resolveBy expression? scope)).map Value.array
              cases items.mapM (resolveBy expression? scope) <;> rfl

/-- A text that describes a value by itself is read as a literal. -/
theorem resolveBy_of_simple (expression? : Option (List Char → Except Fault Value)) (scope : Scope)
    {raw : List Char} (hne : Text.trim raw ≠ [])
    (hexpand : scope.env.expand? (Text.trim raw) = none)
    (hsimple : isSimpleLiteral (Text.trim raw) = true) :
    resolveBy expression? scope raw
      = Literal.ofText (Text.trim raw) >>= (·.finish (resolveBy expression? scope)) := by
  rw [resolveBy_eq, hexpand, hsimple, isReference_of_simple hsimple,
    List.isEmpty_eq_false_iff.mpr hne]
  rfl

/-! ## Operands and expressions -/

/-- The value of an operand of an expression. -/
def resolveOperand (scope : Scope) (text : List Char) : Except Fault Value :=
  if isReference text then scope.resolveReference text
  else do
    let literal ← Literal.ofText text
    literal.finish (resolveBy none scope)

theorem resolveOperand_of_simple (scope : Scope) {text : List Char}
    (h : isSimpleLiteral text = true) :
    resolveOperand scope text = Literal.ofText text >>= (·.finish (resolveBy none scope)) := by
  rw [resolveOperand, isReference_of_simple h]
  rfl

/-- The value of an expression. -/
def evaluateExpression (scope : Scope) (expr : List Char) : Except Fault Value :=
  Expr.evaluate scope.resolveOperand expr

/-! ## All texts -/

/-- The value of a text. -/
def resolve (scope : Scope) (text : List Char) : Except Fault Value :=
  resolveBy (some scope.evaluateExpression) scope text

/-- The value of a text that is read as a literal. -/
def decodeLiteral (scope : Scope) (text : List Char) : Except Fault Value := do
  let literal ← Literal.ofText text
  literal.finish scope.resolve

/-- The values of the items of an array, with or without its brackets. -/
def decodeArray (scope : Scope) (text : List Char) : Except Fault (List Value) :=
  (itemTexts text).mapM scope.resolve

end ConfigLang.Scope
