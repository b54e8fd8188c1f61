import ConfigLang.Proofs.Chain
import ConfigLang.Proofs.IntegerArithmetic
import ConfigLang.Proofs.Scalar
import Mathlib

set_option autoImplicit false

/-! # Integer expressions

Expressions of integers, built from numerals, references, signs, operators and groups, and the texts
they are written as. Groups are replaced one after another by the text of their value; each
replacement leaves the text of an expression of the same value (`Written.exists_replacement`), and
what is left without groups is read and folded level by level (`Written.meaning`). Main statement: a
text evaluates to the exact value of its expression (`evaluateExpression_written`). -/

namespace ConfigLang.Expr

open Token

/-! ## Expressions -/

/-- The operators that give integers. -/
inductive IntegerOperator where
  | add
  | sub
  | mul
  | rem
  deriving DecidableEq, Repr

namespace IntegerOperator

def operator : IntegerOperator → Operator
  | .add => .add
  | .sub => .sub
  | .mul => .mul
  | .rem => .rem

/-- The exact result; a remainder has the sign of its divisor. -/
def apply : IntegerOperator → Int → Int → Int
  | .add, m, n => m + n
  | .sub, m, n => m - n
  | .mul, m, n => m * n
  | .rem, m, n => Int.fmod m n

theorem ofChar?_symbol (op : IntegerOperator) :
    Operator.ofChar? op.operator.symbol = some op.operator := by
  cases op <;> rfl

theorem isDelimiter_symbol (op : IntegerOperator) : isDelimiter op.operator.symbol = true := by
  cases op <;> rfl

theorem symbol_ne (op : IntegerOperator) :
    op.operator.symbol ≠ '(' ∧ op.operator.symbol ≠ ')' := by
  cases op <;> decide

end IntegerOperator

inductive IntegerExpr where
  | literal (digits : List Char)
  | reference (name : List Char)
  | negate (e : IntegerExpr)
  | binary (op : IntegerOperator) (a b : IntegerExpr)
  deriving DecidableEq, Repr

namespace IntegerExpr

/-- The exact value of an expression. -/
def value (scope : Scope) : IntegerExpr → Int
  | .literal digits => Number.ofDigits digits
  | .reference name =>
    match scope.resolveReference name with
    | .ok (.int n) => n.toInt
    | _ => 0
  | .negate e => -e.value scope
  | .binary op a b => op.apply (a.value scope) (b.value scope)

/-- Whether an integer and its negation fit 64 bits. -/
def Fits (n : Int) : Prop :=
  n.natAbs ≤ 2 ^ 63 - 1

instance (n : Int) : Decidable (Fits n) :=
  inferInstanceAs (Decidable (n.natAbs ≤ 2 ^ 63 - 1))

/-- Whether every reference names an integer, every value fits 64 bits and no divisor is zero. -/
def Exact (scope : Scope) : IntegerExpr → Prop
  | .literal digits => Fits (Number.ofDigits digits)
  | .reference name => ∃ n, scope.resolveReference name = .ok (.int n) ∧ Fits n.toInt
  | .negate e => e.Exact scope
  | .binary op a b =>
    a.Exact scope ∧ b.Exact scope ∧ (op = .rem → b.value scope ≠ 0)
      ∧ Fits (op.apply (a.value scope) (b.value scope))

theorem Exact.fits {scope : Scope} {e : IntegerExpr} (h : e.Exact scope) :
    Fits (e.value scope) := by
  induction e with
  | literal digits => exact h
  | reference name =>
    obtain ⟨n, hresolve, hfits⟩ := h
    rw [value, hresolve]
    exact hfits
  | negate e ih =>
    have he := ih h
    rw [Fits] at he ⊢
    rw [value, Int.natAbs_neg]
    exact he
  | binary op a b => exact h.2.2.2

/-- The expression that the text of an integer stands for. -/
def ofInt (n : Int) : IntegerExpr :=
  if n < 0 then .negate (.literal (Number.digitsOf n.natAbs))
  else .literal (Number.digitsOf n.natAbs)

theorem value_ofInt (scope : Scope) (n : Int) : (ofInt n).value scope = n := by
  unfold ofInt
  split
  · rw [value, value, Number.ofDigits_digitsOf]
    omega
  · rw [value, Number.ofDigits_digitsOf]
    omega

theorem exact_ofInt {scope : Scope} {n : Int} (h : Fits n) : (ofInt n).Exact scope := by
  have hdigits : Fits (Number.ofDigits (Number.digitsOf n.natAbs)) := by
    rw [Number.ofDigits_digitsOf, Fits, Int.natAbs_natCast]
    exact h
  unfold ofInt
  split
  · exact hdigits
  · exact hdigits

end IntegerExpr

/-! ## Texts -/

/-- How tightly an expression holds together: operands, products of operands, sums of products. -/
inductive Level where
  | operand
  | product
  | sum
  deriving DecidableEq, Repr

/-- The next tighter level. -/
def Level.tighter : Level → Level
  | .operand => .operand
  | .product => .operand
  | .sum => .product

/-- The level of the expressions that an operator makes. -/
def IntegerOperator.level : IntegerOperator → Level
  | .add => .sum
  | .sub => .sum
  | .mul => .product
  | .rem => .product

/-- The texts of an expression: blanks stand anywhere between tokens, parentheses at least where the
    levels need them. -/
inductive Written : Level → IntegerExpr → List Char → Prop where
  | literal {digits : List Char} (h : Number.isDigits digits = true) :
      Written .operand (.literal digits) digits
  | reference {name : List Char} (hplain : PlainOperand name) (h : isReference name = true) :
      Written .operand (.reference name) name
  | group {e : IntegerExpr} {text : List Char} (h : Written .sum e text) :
      Written .operand e ('(' :: (text ++ [')']))
  | negate {e : IntegerExpr} {text : List Char} (h : Written .operand e text) :
      Written .operand (.negate e) ('-' :: text)
  | binary {op : IntegerOperator} {a b : IntegerExpr} {left right : List Char}
      (ha : Written op.level a left) (hb : Written op.level.tighter b right) :
      Written op.level (.binary op a b) (left ++ op.operator.symbol :: right)
  | blankBefore {level : Level} {e : IntegerExpr} {text : List Char} {c : Char}
      (hc : Text.isBlank c = true) (h : Written level e text) : Written level e (c :: text)
  | blankBehind {level : Level} {e : IntegerExpr} {text : List Char} {c : Char}
      (hc : Text.isBlank c = true) (h : Written level e text) : Written level e (text ++ [c])
  | ofTighter {level : Level} {e : IntegerExpr} {text : List Char}
      (h : Written level.tighter e text) : Written level e text

/-! ## Characters of texts -/

theorem plainOperand_of_isDigits {digits : List Char} (h : Number.isDigits digits = true) :
    PlainOperand digits where
  nonempty := by
    rintro rfl
    exact absurd h (by decide)
  plain := by
    intro c hc
    have hdigit := Number.isDigit_of_mem_isDigits h hc
    have hne : ∀ d : Char, d.isDigit = false → (c == d) = false :=
      fun d hd => beq_eq_false_iff_ne.mpr (Text.ne_of_class hdigit hd)
    have hblank : Text.isBlank c = false :=
      Text.isBlank_of_isAlphanum (by simp [Char.isAlphanum, hdigit])
    have hbreak : isBreak c = false := isBreak_of_class rfl hdigit
    simp [isPlain, hbreak, hblank, hne '(' rfl, hne ')' rfl]

theorem Token.PlainOperand.not_mem {text : List Char} (h : PlainOperand text) {c : Char}
    (hc : isPlain c = false) : c ∉ text := by
  intro hmem
  rw [h.plain c hmem] at hc
  exact absurd hc (by decide)

namespace Written

variable {level : Level} {e : IntegerExpr} {text : List Char}

theorem isQuote_of_mem (h : Written level e text) : ∀ c ∈ text, Text.isQuote c = false := by
  induction h with
  | literal h =>
    intro c hc
    rw [← Bool.not_eq_true]
    intro hquote
    exact (plainOperand_of_isDigits h).not_mem (by simp [isPlain, isBreak, hquote]) hc
  | reference hplain =>
    intro c hc
    rw [← Bool.not_eq_true]
    intro hquote
    exact hplain.not_mem (by simp [isPlain, isBreak, hquote]) hc
  | group _ ih =>
    intro c hc
    simp only [List.mem_cons, List.mem_append, List.not_mem_nil, or_false] at hc
    rcases hc with rfl | hmem | rfl
    · rfl
    · exact ih c hmem
    · rfl
  | negate _ ih =>
    intro c hc
    rcases List.mem_cons.mp hc with rfl | hmem
    · rfl
    · exact ih c hmem
  | @binary op _ _ _ _ _ _ iha ihb =>
    intro c hc
    rcases List.mem_append.mp hc with hleft | hright
    · exact iha c hleft
    · rcases List.mem_cons.mp hright with rfl | hmem
      · exact isQuote_of_isDelimiter op.isDelimiter_symbol
      · exact ihb c hmem
  | blankBefore hc _ ih =>
    intro d hd
    rcases List.mem_cons.mp hd with rfl | hmem
    · exact isQuote_of_isDelimiter (by simp [isDelimiter, hc])
    · exact ih d hmem
  | blankBehind hc _ ih =>
    intro d hd
    rcases List.mem_append.mp hd with hmem | hlast
    · exact ih d hmem
    · rw [List.mem_singleton.mp hlast]
      exact isQuote_of_isDelimiter (by simp [isDelimiter, hc])
  | ofTighter _ ih => exact ih

/-- Every closing parenthesis stands behind an opening one. -/
theorem close_not_mem (h : Written level e text) (hopen : '(' ∉ text) : ')' ∉ text := by
  induction h with
  | literal h => exact (plainOperand_of_isDigits h).not_mem rfl
  | reference hplain => exact hplain.not_mem rfl
  | group => exact absurd List.mem_cons_self hopen
  | negate _ ih =>
    simp only [List.mem_cons, not_or] at hopen ⊢
    exact ⟨by decide, ih hopen.2⟩
  | @binary op _ _ _ _ _ _ iha ihb =>
    simp only [List.mem_append, List.mem_cons, not_or] at hopen ⊢
    exact ⟨iha hopen.1, op.symbol_ne.2.symm, ihb hopen.2.2⟩
  | blankBefore hc _ ih =>
    simp only [List.mem_cons, not_or] at hopen ⊢
    refine ⟨?_, ih hopen.2⟩
    rintro rfl
    exact absurd hc (by decide)
  | blankBehind hc _ ih =>
    simp only [List.mem_append, List.mem_singleton, not_or] at hopen ⊢
    refine ⟨ih hopen.1, ?_⟩
    rintro rfl
    exact absurd hc (by decide)
  | ofTighter _ ih => exact ih hopen

theorem ofInt (n : Int) : Written .operand (.ofInt n) (Number.integerText n) := by
  have hdigits := Written.literal (Number.isDigits_digitsOf n.natAbs)
  unfold IntegerExpr.ofInt Number.integerText
  split
  next hneg =>
    rw [decide_eq_true hneg]
    exact hdigits.negate
  next hneg =>
    rw [decide_eq_false hneg]
    exact hdigits

end Written

/-! ## Replacing groups -/

/-- The last group of the text of an expression, written as the expression `group`, and the text of
    its value in its place, which makes the whole a text of `whole`. -/
structure Replacement (scope : Scope) (level : Level) (e : IntegerExpr) (text : List Char) where
  before : List Char
  inner : List Char
  after : List Char
  group : IntegerExpr
  whole : IntegerExpr
  lastGroup : LastGroup text before inner after
  group_written : Written .sum group inner
  group_exact : group.Exact scope
  whole_written : Written level whole (before ++ Number.integerText (group.value scope) ++ after)
  whole_exact : whole.Exact scope
  value_eq : whole.value scope = e.value scope

namespace Replacement

variable {scope : Scope} {level : Level} {e a b : IntegerExpr} {op : IntegerOperator}
  {text left right : List Char} {c : Char}

/-- The replacement of a group in which none is nested. -/
def innermost (h : Written .sum e text) (hexact : e.Exact scope) (hopen : '(' ∉ text) :
    Replacement scope .operand e ('(' :: (text ++ [')'])) where
  before := []
  inner := text
  after := []
  group := e
  whole := .ofInt (e.value scope)
  lastGroup := ⟨rfl, hopen, h.close_not_mem hopen, by decide⟩
  group_written := h
  group_exact := hexact
  whole_written := by simpa using Written.ofInt (e.value scope)
  whole_exact := IntegerExpr.exact_ofInt hexact.fits
  value_eq := IntegerExpr.value_ofInt _ _

/-- The replacement inside a group. -/
def nested (r : Replacement scope .sum e text) :
    Replacement scope .operand e ('(' :: (text ++ [')'])) :=
  { r with
    before := '(' :: r.before
    after := r.after ++ [')']
    lastGroup := (r.lastGroup.append_left ['(']).append_right (by decide)
    whole_written := by simpa using r.whole_written.group }

def negate (r : Replacement scope .operand e text) :
    Replacement scope .operand (.negate e) ('-' :: text) :=
  { r with
    before := '-' :: r.before
    whole := .negate r.whole
    lastGroup := r.lastGroup.append_left ['-']
    whole_written := r.whole_written.negate
    value_eq := by rw [IntegerExpr.value, IntegerExpr.value, r.value_eq] }

/-- The replacement in the left operand, where the right one holds no group. -/
def inLeft (r : Replacement scope op.level a left) (hb : Written op.level.tighter b right)
    (hexact : (IntegerExpr.binary op a b).Exact scope) (hopen : '(' ∉ right) :
    Replacement scope op.level (.binary op a b) (left ++ op.operator.symbol :: right) :=
  { r with
    after := r.after ++ op.operator.symbol :: right
    whole := .binary op r.whole b
    lastGroup := by
      apply r.lastGroup.append_right
      rw [List.mem_cons, not_or]
      exact ⟨op.symbol_ne.1.symm, hopen⟩
    whole_written := by simpa using r.whole_written.binary hb
    whole_exact := by
      obtain ⟨-, hb, hdivisor, hfits⟩ := hexact
      refine ⟨r.whole_exact, hb, hdivisor, ?_⟩
      rw [r.value_eq]
      exact hfits
    value_eq := by rw [IntegerExpr.value, IntegerExpr.value, r.value_eq] }

/-- The replacement in the right operand. -/
def inRight (ha : Written op.level a left) (r : Replacement scope op.level.tighter b right)
    (hexact : (IntegerExpr.binary op a b).Exact scope) :
    Replacement scope op.level (.binary op a b) (left ++ op.operator.symbol :: right) :=
  { r with
    before := left ++ op.operator.symbol :: r.before
    whole := .binary op a r.whole
    lastGroup := by simpa using r.lastGroup.append_left (left ++ [op.operator.symbol])
    whole_written := by simpa using ha.binary r.whole_written
    whole_exact := by
      obtain ⟨ha, -, hdivisor, hfits⟩ := hexact
      refine ⟨ha, r.whole_exact, ?_, ?_⟩
      · rw [r.value_eq]
        exact hdivisor
      · rw [r.value_eq]
        exact hfits
    value_eq := by rw [IntegerExpr.value, IntegerExpr.value, r.value_eq] }

def blankBefore (r : Replacement scope level e text) (hc : Text.isBlank c = true) :
    Replacement scope level e (c :: text) :=
  { r with
    before := c :: r.before
    lastGroup := r.lastGroup.append_left [c]
    whole_written := r.whole_written.blankBefore hc }

def blankBehind (r : Replacement scope level e text) (hc : Text.isBlank c = true) :
    Replacement scope level e (text ++ [c]) :=
  { r with
    after := r.after ++ [c]
    lastGroup := by
      apply r.lastGroup.append_right
      rw [List.mem_singleton]
      rintro rfl
      exact absurd hc (by decide)
    whole_written := by simpa using r.whole_written.blankBehind hc }

def ofTighter (r : Replacement scope level.tighter e text) : Replacement scope level e text :=
  { r with whole_written := r.whole_written.ofTighter }

end Replacement

/-- A text with a group has a replacement. -/
theorem Written.exists_replacement {scope : Scope} {level : Level} {e : IntegerExpr}
    {text : List Char} (h : Written level e text) (hexact : e.Exact scope) (hopen : '(' ∈ text) :
    Nonempty (Replacement scope level e text) := by
  induction h with
  | literal h => exact absurd hopen ((plainOperand_of_isDigits h).not_mem rfl)
  | reference hplain => exact absurd hopen (hplain.not_mem rfl)
  | @group e text h ih =>
    by_cases hnested : '(' ∈ text
    · obtain ⟨r⟩ := ih hexact hnested
      exact ⟨r.nested⟩
    · exact ⟨.innermost h hexact hnested⟩
  | negate _ ih =>
    obtain ⟨r⟩ := ih hexact (by simpa using hopen)
    exact ⟨r.negate⟩
  | @binary op a b left right ha hb iha ihb =>
    -- a group on the right side comes after all groups on the left
    by_cases hright : '(' ∈ right
    · obtain ⟨r⟩ := ihb hexact.2.1 hright
      exact ⟨.inRight ha r hexact⟩
    · have hleft : '(' ∈ left := by
        simp only [List.mem_append, List.mem_cons, hright, or_false] at hopen
        exact hopen.resolve_right op.symbol_ne.1.symm
      obtain ⟨r⟩ := iha hexact.1 hleft
      exact ⟨r.inLeft hb hexact hright⟩
  | @blankBefore _ _ _ c hc _ ih =>
    have hne : '(' ≠ c := by
      rintro rfl
      exact absurd hc (by decide)
    obtain ⟨r⟩ := ih hexact ((List.mem_cons.mp hopen).resolve_left hne)
    exact ⟨r.blankBefore hc⟩
  | @blankBehind _ _ _ c hc _ ih =>
    have hne : '(' ∉ [c] := by
      rw [List.mem_singleton]
      rintro rfl
      exact absurd hc (by decide)
    obtain ⟨r⟩ := ih hexact ((List.mem_append.mp hopen).resolve_right hne)
    exact ⟨r.blankBehind hc⟩
  | ofTighter _ ih =>
    obtain ⟨r⟩ := ih hexact hopen
    exact ⟨r.ofTighter⟩

/-! ## Values of integers -/

/-- The value that an integer of 64 bits is. -/
def intValue (n : Int) : Value :=
  .int (Int64.ofInt n)

section

open IntegerExpr (Fits)

theorem toInt_ofInt_of_fits {n : Int} (h : Fits n) : (Int64.ofInt n).toInt = n := by
  rw [Fits] at h
  exact Int64.toInt_ofInt_of_le (by omega) (by omega)

theorem int64?_of_fits {n : Int} (h : Fits n) : Number.int64? n = some (Int64.ofInt n) := by
  rw [Fits] at h
  rw [Number.int64?, if_pos ⟨by omega, by omega⟩]

theorem negate_intValue {n : Int} (h : Fits n) : negate (intValue n) = .ok (intValue (-n)) := by
  have hneg : Fits (-n) := by
    rw [Fits, Int.natAbs_neg]
    exact h
  show Except.ok (Numeric.negate (.int (Int64.ofInt n))).toValue = _
  rw [Numeric.negate, toInt_ofInt_of_fits h, int64?_of_fits hneg]
  rfl

theorem combine_of_fits {onInts : Int → Int → Int} {m n : Int} (hm : Fits m) (hn : Fits n)
    (h : Fits (onInts m n)) (onFloats : Float → Float → Float) :
    Numeric.combine onInts onFloats (.int (Int64.ofInt m)) (.int (Int64.ofInt n))
      = .int (Int64.ofInt (onInts m n)) := by
  rw [Numeric.combine, toInt_ofInt_of_fits hm, toInt_ofInt_of_fits hn, int64?_of_fits h]

theorem apply_intValue {op : IntegerOperator} {m n : Int} (hm : Fits m) (hn : Fits n)
    (hdivisor : op = .rem → n ≠ 0) (h : Fits (op.apply m n)) :
    apply op.operator (intValue m) (intValue n) = .ok (intValue (op.apply m n)) := by
  have hcompute : apply op.operator (intValue m) (intValue n)
      = compute op.operator (intValue m) (intValue n) := by
    rw [apply, if_neg]
    simp [isString, intValue]
  rw [hcompute]
  cases op with
  | add => exact congrArg (fun r => Except.ok (Numeric.toValue r)) (combine_of_fits hm hn h _)
  | sub => exact congrArg (fun r => Except.ok (Numeric.toValue r)) (combine_of_fits hm hn h _)
  | mul => exact congrArg (fun r => Except.ok (Numeric.toValue r)) (combine_of_fits hm hn h _)
  | rem =>
    have hne : Int64.ofInt n ≠ 0 := by
      intro heq
      have htoInt := toInt_ofInt_of_fits hn
      rw [heq, Int64.toInt_zero] at htoInt
      exact hdivisor rfl htoInt.symm
    have hremainder : Numeric.flooredRemainder (Int64.ofInt m) (Int64.ofInt n)
        = Int64.ofInt (m.fmod n) := by
      rw [← Int64.ofInt_toInt (Numeric.flooredRemainder _ _), Numeric.toInt_flooredRemainder hne,
        toInt_ofInt_of_fits hm, toInt_ofInt_of_fits hn]
    show compute .rem (.int (Int64.ofInt m)) (.int (Int64.ofInt n)) = _
    rw [compute_rem_int, if_neg (mt isZero_int_iff.mp hne), hremainder]
    rfl

end

/-! ## Operands -/

theorem resolveOperand_digits (scope : Scope) {digits : List Char}
    (h : Number.isDigits digits = true) (hfits : IntegerExpr.Fits (Number.ofDigits digits)) :
    scope.resolveOperand digits = .ok (intValue (Number.ofDigits digits)) := by
  have hinteger := Number.isInteger_of_isDigits h
  have hread : Number.readInt64? digits = some (Int64.ofInt (Number.ofDigits digits)) := by
    rw [Number.readInt64?, Number.readInteger?_of_isDigits h, Option.bind_some,
      int64?_of_fits hfits]
  rw [scope.resolveOperand_of_simple (isSimpleLiteral_integer hinteger),
    Literal.ofText_integer hinteger hread]
  rfl

theorem resolveOperand_reference {scope : Scope} {name : List Char} (h : isReference name = true)
    {n : Int64} (hresolve : scope.resolveReference name = .ok (.int n)) :
    scope.resolveOperand name = .ok (intValue ((IntegerExpr.reference name).value scope)) := by
  rw [Scope.resolveOperand, if_pos h, IntegerExpr.value, hresolve, intValue, Int64.ofInt_toInt]

/-! ## Texts without groups -/

/-- What the tokens of a text of a level stand for: an operand takes the signs before it, a product
    and a sum are chains that fold to their value. -/
def Level.Means (expr : List Char) (scope : Scope) (tokens : List Token) (n : Int) : Level → Prop
  | .operand => ∀ done negative more,
      Chain.readOperand expr scope.resolveOperand done negative (tokens ++ more)
        = Chain.readOperator expr scope.resolveOperand
            (Chain.behind done ⟨intValue (if negative then -n else n), []⟩) more
  | .product => ∃ c : Chain, Chain.Reads expr scope.resolveOperand tokens c
      ∧ Chain.fold Operator.isMultiplicative c.first c.rest = .ok ⟨intValue n, []⟩
  | .sum => ∃ c d : Chain, Chain.Reads expr scope.resolveOperand tokens c
      ∧ Chain.fold Operator.isMultiplicative c.first c.rest = .ok d
      ∧ Chain.fold (!Operator.isMultiplicative ·) d.first d.rest = .ok ⟨intValue n, []⟩

section

variable {expr : List Char} {scope : Scope}

theorem Level.means_operand {text : List Char} {n : Int} (htext : PlainOperand text)
    (h : scope.resolveOperand text = .ok (intValue n)) (hfits : IntegerExpr.Fits n) :
    Level.operand.Means expr scope (Token.scan text) n := by
  intro done negative more
  rw [htext.scan_eq, List.singleton_append, Chain.readOperand_operand, h]
  cases negative with
  | false => rfl
  | true => simp only [Except.bind, if_true, negate_intValue hfits]

theorem Level.Means.ofTighter {level : Level} {tokens : List Token} {n : Int}
    (h : level.tighter.Means expr scope tokens n) : level.Means expr scope tokens n := by
  cases level with
  | operand => exact h
  | product => exact Chain.Reads.readsProduct fun done more => h done false more
  | sum => exact Chain.ReadsProduct.readsSum h

theorem Level.Means.product {op : IntegerOperator} {left right : List Token} {m n : Int}
    (hop : op.operator.isMultiplicative = true) (ha : Level.product.Means expr scope left m)
    (hb : Level.operand.Means expr scope right n)
    (happly : apply op.operator (intValue m) (intValue n) = .ok (intValue (op.apply m n))) :
    Level.product.Means expr scope (left ++ .operator op.operator :: right) (op.apply m n) :=
  Chain.ReadsProduct.times ha (fun done more => hb done false more) hop happly

theorem Level.Means.sum {op : IntegerOperator} {left right : List Token} {m n : Int}
    (hop : op.operator.isMultiplicative = false) (ha : Level.sum.Means expr scope left m)
    (hb : Level.product.Means expr scope right n)
    (happly : apply op.operator (intValue m) (intValue n) = .ok (intValue (op.apply m n))) :
    Level.sum.Means expr scope (left ++ .operator op.operator :: right) (op.apply m n) :=
  Chain.ReadsSum.plus ha hb hop happly

/-- A text without groups means its expression. -/
theorem Written.meaning {level : Level} {e : IntegerExpr} {text : List Char}
    (h : Written level e text) (hexact : e.Exact scope) (hopen : '(' ∉ text) :
    level.Means expr scope (Token.scan text) (e.value scope) := by
  induction h with
  | literal h =>
    exact Level.means_operand (plainOperand_of_isDigits h) (resolveOperand_digits scope h hexact)
      hexact.fits
  | reference hplain h =>
    have hfits := hexact.fits
    obtain ⟨n, hresolve, -⟩ := hexact
    exact Level.means_operand hplain (resolveOperand_reference h hresolve) hfits
  | group => exact absurd List.mem_cons_self hopen
  | negate _ ih =>
    intro done negative more
    -- a sign before an operand turns the sign that was read before it
    have hrest := ih hexact (by simpa using hopen) done (!negative) more
    rw [Token.scan_operator rfl, List.cons_append, Chain.readOperand, if_pos rfl, hrest,
      IntegerExpr.value]
    cases negative <;> simp
  | @binary op a b left right ha hb iha ihb =>
    simp only [List.mem_append, List.mem_cons, not_or] at hopen
    obtain ⟨haExact, hbExact, hdivisor, hfits⟩ := hexact
    have happly := apply_intValue haExact.fits hbExact.fits hdivisor hfits
    -- the operator ends the last operand of the left side, so the two sides are scanned apart
    have hspan : (({} : Scan.Quotes).scan left).span? = none :=
      Scan.Quotes.span_scan_of_not_quote rfl ha.isQuote_of_mem
    have hleft := iha haExact hopen.1
    have hright := ihb hbExact hopen.2.2
    have htokens : Token.scan (left ++ op.operator.symbol :: right)
        = Token.scan left ++ .operator op.operator :: Token.scan right := by
      rw [Token.scan_append hspan, Token.scan_operator op.ofChar?_symbol]
      intro c hc
      rw [List.head?_cons, Option.mem_some_iff] at hc
      exact hc ▸ op.isDelimiter_symbol
    rw [htokens, IntegerExpr.value]
    cases op with
    | add => exact hleft.sum rfl hright happly
    | sub => exact hleft.sum rfl hright happly
    | mul => exact hleft.product rfl hright happly
    | rem => exact hleft.product rfl hright happly
  | blankBefore hc _ ih =>
    rw [Token.scan_blank hc]
    exact ih hexact fun hmem => hopen (List.mem_cons_of_mem _ hmem)
  | @blankBehind _ _ _ c hc h ih =>
    have hspan : (({} : Scan.Quotes).scan _).span? = none :=
      Scan.Quotes.span_scan_of_not_quote rfl h.isQuote_of_mem
    have hlast : Token.scan [c] = [] := Token.scan_blank hc []
    rw [Token.scan_append hspan, hlast, List.append_nil]
    · exact ih hexact fun hmem => hopen (List.mem_append_left _ hmem)
    · intro d hd
      rw [List.head?_cons, Option.mem_some_iff] at hd
      rw [← hd, isDelimiter, hc, Bool.true_or]
  | ofTighter _ ih => exact (ih hexact hopen).ofTighter

end

/-- A text without groups evaluates to the value of its expression. -/
theorem Written.evaluateFlat_eq {scope : Scope} {e : IntegerExpr} {text : List Char}
    (h : Written .sum e text) (hexact : e.Exact scope) (hopen : '(' ∉ text) :
    evaluateFlat scope.resolveOperand text = .ok (intValue (e.value scope)) := by
  have hmeans : Level.sum.Means text scope (Token.scan text) (e.value scope) :=
    h.meaning hexact hopen
  exact Chain.ReadsSum.evaluateFlat_eq hmeans

/-! ## Texts with groups -/

/-- Replacing all groups leaves a text of an expression of the same value. -/
theorem Written.replaceGroups_eq {scope : Scope} {e : IntegerExpr} {text : List Char}
    (h : Written .sum e text) (hexact : e.Exact scope) {limit : Nat}
    (hlimit : text.count '(' ≤ limit) :
    ∃ reduced whole, replaceGroups (evaluateFlat scope.resolveOperand) limit text = .ok reduced
      ∧ '(' ∉ reduced ∧ Written .sum whole reduced ∧ whole.Exact scope
      ∧ whole.value scope = e.value scope := by
  induction limit generalizing e text with
  | zero =>
    have hopen : '(' ∉ text := List.count_eq_zero.mp (Nat.le_zero.mp hlimit)
    exact ⟨text, e, replaceGroups_of_not_mem hopen _ _, hopen, h, hexact, rfl⟩
  | succ limit ih =>
    by_cases hopen : '(' ∈ text
    -- each replacement takes one parenthesis away and keeps the value
    · obtain ⟨r⟩ := h.exists_replacement hexact hopen
      have hinner := r.group_written.evaluateFlat_eq r.group_exact r.lastGroup.open_not_mem_inner
      have hgroup : groupText (intValue (r.group.value scope))
          = Number.integerText (r.group.value scope) := by
        show Number.integerText (Int64.ofInt (r.group.value scope)).toInt = _
        rw [toInt_ofInt_of_fits r.group_exact.fits]
      have hcount : (r.before ++ Number.integerText (r.group.value scope) ++ r.after).count '('
          ≤ limit := by
        have hnumeral : '(' ∉ Number.integerText (r.group.value scope) :=
          fun hmem => ne_of_mem_integer (Number.isInteger_integerText _) hmem rfl rfl
        rw [r.lastGroup.text_eq] at hlimit
        simp only [List.count_append, List.count_cons_self] at hlimit ⊢
        rw [List.count_eq_zero.mpr hnumeral, List.count_eq_zero.mpr r.lastGroup.open_not_mem_after]
        omega
      obtain ⟨reduced, whole, hreplace, hnone, hwritten, hwhole, hvalue⟩ :=
        ih r.whole_written r.whole_exact hcount
      refine ⟨reduced, whole, ?_, hnone, hwritten, hwhole, hvalue.trans r.value_eq⟩
      rw [r.lastGroup.replaceGroups_eq, hinner]
      show replaceGroups _ limit (r.before ++ groupText (intValue _) ++ r.after) = _
      rw [hgroup, hreplace]
    · exact ⟨text, e, replaceGroups_of_not_mem hopen _ _, hopen, h, hexact, rfl⟩

/-- Every text of an integer expression evaluates to the exact value of the expression. -/
theorem evaluateExpression_written {scope : Scope} {e : IntegerExpr} {text : List Char}
    (h : Written .sum e text) (hexact : e.Exact scope) :
    ∃ n : Int64, scope.evaluateExpression text = .ok (.int n) ∧ n.toInt = e.value scope := by
  refine ⟨Int64.ofInt (e.value scope), ?_, toInt_ofInt_of_fits hexact.fits⟩
  obtain ⟨reduced, whole, hreplace, hopen, hwritten, hwhole, hvalue⟩ :=
    h.replaceGroups_eq hexact (Nat.le_add_right _ groupsFromStrings)
  have hclose : Scan.cutUnquoted? (· == ')') reduced = none := by
    apply Scan.cutWhen?_eq_none_of_forall
    intro c hc
    rw [beq_eq_false_iff_ne]
    rintro rfl
    exact hwritten.close_not_mem hopen hc
  rw [Scope.evaluateExpression, evaluate, hreplace]
  show (if (Scan.cutUnquoted? (· == ')') reduced).isSome then _ else
    evaluateFlat scope.resolveOperand reduced) = _
  rw [hclose, hwritten.evaluateFlat_eq hwhole hopen, hvalue]
  rfl

/-- `x` is 7. -/
def sevenScope : Scope :=
  { tree := ⟨[("x", .int 7)]⟩ }

/-- A group with a negative value, and a remainder with the sign of its divisor. -/
theorem evaluateExpression_negativeGroup :
    Written .sum (.binary .rem (.binary .sub (.literal ['2']) (.reference ['x'])) (.literal ['3']))
      "(2 - x) % 3".toList
    ∧ sevenScope.evaluateExpression "(2 - x) % 3".toList = .ok (.int 1) := by
  have hx : PlainOperand ['x'] := ⟨by decide, List.all_eq_true.mp rfl⟩
  have htwo : Written .product (.literal ['2']) ['2'] := .ofTighter (.literal rfl)
  have hleft : Written .sum (.literal ['2']) ['2', ' '] := .ofTighter (htwo.blankBehind rfl)
  have hright : Written .product (.reference ['x']) [' ', 'x'] :=
    .ofTighter ((Written.reference hx (by decide)).blankBefore rfl)
  have hdifference := @Written.binary .sub _ _ _ _ hleft hright
  have hdividend : Written .product (.binary .sub (.literal ['2']) (.reference ['x']))
      "(2 - x) ".toList := .ofTighter (hdifference.group.blankBehind rfl)
  have hthree : Written .operand (.literal ['3']) [' ', '3'] := (Written.literal rfl).blankBefore rfl
  have hremainder := @Written.binary .rem _ _ _ _ hdividend hthree
  have hwritten : Written .sum
      (.binary .rem (.binary .sub (.literal ['2']) (.reference ['x'])) (.literal ['3']))
      "(2 - x) % 3".toList := .ofTighter hremainder
  have hexact : (IntegerExpr.binary .rem (.binary .sub (.literal ['2']) (.reference ['x']))
      (.literal ['3'])).Exact sevenScope := by
    have hliteral : ∀ digits, IntegerExpr.Fits (Number.ofDigits digits) →
        (IntegerExpr.literal digits).Exact sevenScope := fun _ h => h
    refine ⟨⟨hliteral _ (by decide), ⟨7, rfl, by decide⟩, by decide, by decide⟩,
      hliteral _ (by decide), by decide, by decide⟩
  refine ⟨hwritten, ?_⟩
  obtain ⟨n, heval, hvalue⟩ := evaluateExpression_written hwritten hexact
  rw [heval, Int64.toInt.inj (hvalue.trans rfl : n.toInt = (1 : Int64).toInt)]

/-- The brackets of a reference are no part of operands: a reference with a quoted accessor resolves,
    but an expression that holds it does not. -/
theorem evaluateExpression_quotedAccessor :
    let scope : Scope := { tree := ⟨[("cfg", .object [("obj", .object [("k", .int 5)])])]⟩ }
    isReference "cfg.obj[\"k\"]".toList = true
      ∧ scope.resolveReference "cfg.obj[\"k\"]".toList = .ok (.int 5)
      ∧ scope.evaluateExpression "cfg.obj[\"k\"] + 1".toList
          = .error (.unresolved (.unknownReference "cfg.obj[")) := by
  refine ⟨by decide +kernel, ?_, ?_⟩ <;> cbv

end ConfigLang.Expr
