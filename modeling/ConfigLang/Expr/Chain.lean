import ConfigLang.Expr.Arithmetic

set_option autoImplicit false

/-! # Chains

An expression without groups is a chain: a value, and further values behind an operator each. Signs
before an operand belong to it. Reading a chain resolves its operands from left to right; its value
comes from two passes over the operators, first the multiplicative ones and then the others, each
from left to right. -/

namespace ConfigLang.Expr

/-- A value followed by values behind operators. -/
structure Chain where
  first : Value
  rest : List (Operator × Value)

namespace Chain

/-- The chain with one more value behind an operator; a chain that is not begun starts with it. -/
def extend (done : Option (Chain × Operator)) (v : Value) : Chain :=
  match done with
  | none => ⟨v, []⟩
  | some (chain, op) => ⟨chain.first, chain.rest ++ [(op, v)]⟩

/-! ## Reading -/

variable (expr : List Char) (resolve : List Char → Except Fault Value)

mutual

/-- Read on where an operand is expected; `negative` tells whether an odd number of signs stands
    before it. -/
def readOperand (done : Option (Chain × Operator)) (negative : Bool) :
    List Token → Except Fault Chain
  | [] =>
    match done with
    | none => .error (.malformed (.emptyExpression (String.ofList expr)))
    | some _ => .error (.malformed (.danglingOperator (String.ofList expr)))
  | .operator op :: tokens =>
    if op = .sub then readOperand done (!negative) tokens
    else .error (.malformed (.unexpectedOperator op.symbol (String.ofList expr)))
  | .operand text :: tokens => do
    let v ← resolve text
    let v ← if negative then negate v else pure v
    readOperator (extend done v) tokens

/-- Read on where an operator is expected, or the end. -/
def readOperator (chain : Chain) : List Token → Except Fault Chain
  | [] => .ok chain
  | .operator op :: tokens => readOperand (some (chain, op)) false tokens
  | .operand text :: _ =>
    .error (.malformed (.missingOperator (String.ofList text) (String.ofList expr)))

end

/-- The chain of an expression without groups, where `resolve` gives the values of operands. -/
def read : Except Fault Chain :=
  readOperand expr resolve none false (Token.scan expr)

/-! ## Folding -/

/-- Apply the operators that `now` picks, from left to right; the others stay. -/
def fold (now : Operator → Bool) (acc : Value) :
    List (Operator × Value) → Except Fault Chain
  | [] => .ok ⟨acc, []⟩
  | (op, v) :: rest =>
    if now op then do
      let acc ← apply op acc v
      fold now acc rest
    else do
      let chain ← fold now v rest
      return ⟨acc, (op, chain.first) :: chain.rest⟩

/-- The value of a chain. -/
def value (chain : Chain) : Except Fault Value := do
  let sum ← fold Operator.isMultiplicative chain.first chain.rest
  let total ← fold (!Operator.isMultiplicative ·) sum.first sum.rest
  return total.first

end Chain

/-- The value of an expression without groups. -/
def evaluateFlat (resolve : List Char → Except Fault Value) (expr : List Char) :
    Except Fault Value := do
  let chain ← Chain.read expr resolve
  chain.value

end ConfigLang.Expr
