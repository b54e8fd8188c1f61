import ConfigLang.Scan.Quotes
import ConfigLang.Text.Blank

set_option autoImplicit false

/-! # Tokens of expressions

An expression is a row of operands and operators. Outside quotes every operator character is a token
and every blank separates; a quoted span is an operand of its own, quotes included. All else is
gathered into operands. -/

namespace ConfigLang.Expr

inductive Operator where
  | add
  | sub
  | mul
  | div
  | rem
  deriving DecidableEq, Repr

namespace Operator

def ofChar? : Char → Option Operator
  | '+' => some .add
  | '-' => some .sub
  | '*' => some .mul
  | '/' => some .div
  | '%' => some .rem
  | _ => none

def symbol : Operator → Char
  | .add => '+'
  | .sub => '-'
  | .mul => '*'
  | .div => '/'
  | .rem => '%'

/-- Whether an operator binds tighter than addition. -/
def isMultiplicative : Operator → Bool
  | .add => false
  | .sub => false
  | _ => true

end Operator

inductive Token where
  | operand (text : List Char)
  | operator (op : Operator)
  deriving DecidableEq, Repr

namespace Token

/-- The operand that the characters gathered so far make, in reverse; none if they are blank. -/
def gathered (gathering : List Char) : List Token :=
  let text := Text.trim gathering.reverse
  if text.isEmpty then [] else [.operand text]

/-- Tokens of what is left of an expression, where `gathering` holds the characters of the current
    operand in reverse. -/
def scanFrom (s : Scan.Quotes) (gathering : List Char) : List Char → List Token
  | [] => gathered gathering
  | c :: rest =>
    match s.span? with
    | some q =>
      if s.closes q c then
        .operand (c :: gathering).reverse :: scanFrom (s.step c) [] rest
      else scanFrom (s.step c) (c :: gathering) rest
    | none =>
      if Text.isQuote c then gathered gathering ++ scanFrom (s.step c) [c] rest
      else
        match Operator.ofChar? c with
        | some op => gathered gathering ++ .operator op :: scanFrom (s.step c) [] rest
        | none =>
          if Text.isBlank c then gathered gathering ++ scanFrom (s.step c) [] rest
          else scanFrom (s.step c) (c :: gathering) rest

/-- The tokens of an expression. -/
def scan (expr : List Char) : List Token :=
  scanFrom {} [] expr

end Token

end ConfigLang.Expr
