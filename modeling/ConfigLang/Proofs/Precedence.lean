import ConfigLang.Proofs.ChainForm
import ConfigLang.Proofs.IntegerExpr

set_option autoImplicit false

/-! # Precedence

The value of tokens by the grammar of expressions (`Evaluates`): signs belong to operands, products are
computed from left to right, and so are the sums of products. A chain has no tree; it is folded twice.
Main statement: both give the same value, and the folds have one exactly where the grammar does
(`evaluateFlat_eq_ok_iff`). -/

namespace ConfigLang.Expr

variable {resolve : List Char → Except Fault Value}

/-- What tokens are worth, where `resolve` gives the values of operands. -/
inductive Evaluates (resolve : List Char → Except Fault Value) : Level → List Token → Value → Prop
  | operand {signs : Nat} {text : List Char} {v : Value}
    (h : signedValue resolve signs text = .ok v) :
    Evaluates resolve .operand (Token.signed signs text) v
  | factor {x : List Token} {v : Value} (h : Evaluates resolve .operand x v) :
    Evaluates resolve .product x v
  | times {op : Operator} {x y : List Token} {a b v : Value} (hop : op.isMultiplicative = true)
    (hx : Evaluates resolve .product x a) (hy : Evaluates resolve .operand y b)
    (h : apply op a b = .ok v) : Evaluates resolve .product (x ++ .operator op :: y) v
  | term {x : List Token} {v : Value} (h : Evaluates resolve .product x v) :
    Evaluates resolve .sum x v
  | plus {op : Operator} {x y : List Token} {a b v : Value} (hop : op.isMultiplicative = false)
    (hx : Evaluates resolve .sum x a) (hy : Evaluates resolve .product y b)
    (h : apply op a b = .ok v) : Evaluates resolve .sum (x ++ .operator op :: y) v

/-! ## From the grammar to the folds -/

/-- How tokens of a level are read and folded. -/
def Level.Reads (expr : List Char) (resolve : List Char → Except Fault Value) (tokens : List Token)
    (v : Value) : Level → Prop
  | .operand => Chain.Reads expr resolve tokens ⟨v, []⟩
  | .product => Chain.ReadsProduct expr resolve tokens v
  | .sum => Chain.ReadsSum expr resolve tokens v

theorem Chain.reads_signed {signs : Nat} {text : List Char} {v : Value}
    (h : signedValue resolve signs text = .ok v) (expr : List Char) :
    Chain.Reads expr resolve (Token.signed signs text) ⟨v, []⟩ := by
  intro done more
  rw [Chain.readOperand_signed, h]
  rfl

theorem Evaluates.reads {level : Level} {tokens : List Token} {v : Value}
    (h : Evaluates resolve level tokens v) (expr : List Char) :
    level.Reads expr resolve tokens v := by
  induction h with
  | operand h => exact Chain.reads_signed h expr
  | factor h ih => exact Chain.Reads.readsProduct ih
  | times hop hx hy h ihx ihy => exact Chain.ReadsProduct.times ihx ihy hop h
  | term h ih => exact Chain.ReadsProduct.readsSum ih
  | plus hop hx hy h ihx ihy => exact Chain.ReadsSum.plus ihx ihy hop h

/-! ## From the folds to the grammar -/

namespace Chain

/-- The second pass applies the operators that the first one leaves. -/
theorem exists_of_fold_sum {op : Operator} {a b v : Value} {rest : List (Operator × Value)}
    (hop : op.isMultiplicative = false)
    (h : fold (!Operator.isMultiplicative ·) a ((op, b) :: rest) = .ok ⟨v, []⟩) :
    ∃ w, apply op a b = .ok w ∧ fold (!Operator.isMultiplicative ·) w rest = .ok ⟨v, []⟩ := by
  rcases fold_cons_cases h with ⟨-, hw⟩ | ⟨hnow, -⟩
  · exact hw
  · exact absurd hnow (by simp [hop])

/-- A product stands before a row, and the first pass leaves `c` of both. What the second pass makes of
    `c` is what the grammar gives the product and the row, and what it makes of a sum and `c` is what the
    grammar gives all three. -/
theorem Row.evaluates {tokens x : List Token} {rest : List (Operator × Value)} {acc : Value}
    {c : Chain} (h : Row resolve tokens rest) (hx : Evaluates resolve .product x acc)
    (hfold : fold Operator.isMultiplicative acc rest = .ok c) :
    (∀ v, fold (!Operator.isMultiplicative ·) c.first c.rest = .ok ⟨v, []⟩ →
        Evaluates resolve .sum (x ++ tokens) v)
      ∧ ∀ sum a op v, Evaluates resolve .sum sum a → op.isMultiplicative = false →
        fold (!Operator.isMultiplicative ·) a ((op, c.first) :: c.rest) = .ok ⟨v, []⟩ →
        Evaluates resolve .sum (sum ++ .operator op :: (x ++ tokens)) v := by
  induction h generalizing x acc c with
  | nil =>
    obtain rfl := Except.ok.inj hfold
    rw [List.append_nil]
    refine ⟨fun v hv => ?_, fun sum a op v hsum hop hv => ?_⟩
    · obtain ⟨rfl, -⟩ := Chain.mk.inj (Except.ok.inj hv)
      exact .term hx
    · obtain ⟨w, happly, hw⟩ := exists_of_fold_sum hop hv
      obtain ⟨rfl, -⟩ := Chain.mk.inj (Except.ok.inj hw)
      exact .plus hop hsum hx happly
  | @cons tokens rest signs text factor next hfactor h ih =>
    rcases fold_cons_cases hfold with ⟨hnext, w, happly, hrest⟩ | ⟨hnext, d, hrest, rfl⟩
    · -- the product has one more factor
      have hlonger := ih (.times hnext hx (.operand hfactor) happly) hrest
      simpa only [List.append_assoc, List.cons_append] using hlonger
    · -- the product is an addend, and the next one begins
      obtain ⟨-, hbehind⟩ := ih (.factor (.operand hfactor)) hrest
      refine ⟨fun v hv => hbehind x acc next v (.term hx) hnext hv,
        fun sum a op v hsum hop hv => ?_⟩
      obtain ⟨w, happly, hw⟩ := exists_of_fold_sum hop hv
      have hlonger := hbehind _ w next v (.plus hop hsum hx happly) hnext hw
      simpa only [List.append_assoc, List.cons_append] using hlonger

end Chain

/-- An expression without groups has the value that the grammar gives its tokens, and none where the
    grammar gives none. -/
theorem evaluateFlat_eq_ok_iff (resolve : List Char → Except Fault Value) (expr : List Char)
    (v : Value) :
    evaluateFlat resolve expr = .ok v ↔ Evaluates resolve .sum (Token.scan expr) v := by
  refine ⟨fun h => ?_, fun h => Chain.ReadsSum.evaluateFlat_eq (h.reads expr)⟩
  obtain ⟨c, hread, hvalue⟩ := exists_of_bind h
  obtain ⟨signs, text, more, hscan, hfirst, hrow⟩ := Chain.read_eq_ok_iff.mp hread
  obtain ⟨sum, total, hsum, htotal, rfl⟩ := Chain.exists_of_value hvalue
  have hone : total = ⟨total.first, []⟩ := by rw [← Chain.rest_eq_nil_of_folds hsum htotal]
  rw [hscan]
  exact (hrow.evaluates (.factor (.operand hfirst)) hsum).1 total.first (by rw [htotal, ← hone])

example : evaluateFlat ({} : Scope).resolveOperand "true - -\"3\" * --\"2\"".toList
    = .ok (.int 7) := by
  cbv

end ConfigLang.Expr
