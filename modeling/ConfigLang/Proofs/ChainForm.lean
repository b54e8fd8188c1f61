import ConfigLang.Proofs.Chain
import ConfigLang.Proofs.ResolvingFaults
import Mathlib

set_option autoImplicit false

/-! # The form of chains

Tokens have the form of a chain if operands, each behind any number of signs, take turns with operators
(`Token.TakesTurns`). Reading finds a chain exactly in tokens of this form whose operands have values
behind their signs (`Chain.read_eq_ok_iff`). Main statement: where every operand has a value and every
negated one is a number, it is the form alone that decides whether an expression is refused as malformed
(`evaluateFlat_malformed_iff`). -/

namespace ConfigLang.Expr

/-! ## Rows of tokens -/

namespace Token

/-- An operand behind signs. -/
def signed (signs : Nat) (text : List Char) : List Token :=
  List.replicate signs (.operator .sub) ++ [.operand text]

/-- Any number of operators, each with a signed operand behind it. -/
inductive Turns : List Token → Prop
  | nil : Turns []
  | cons {tokens : List Token} (op : Operator) (signs : Nat) (text : List Char)
    (h : Turns tokens) : Turns (.operator op :: (signed signs text ++ tokens))

/-- A signed operand, and signed operands behind operators. -/
def TakesTurns (tokens : List Token) : Prop :=
  ∃ signs text more, tokens = signed signs text ++ more ∧ Turns more

/-- An odd number of signs stands before an operand, where the tokens before it take turns. -/
inductive Negated : List Token → List Char → Prop
  | first {signs : Nat} {text : List Char} {more : List Token} (hodd : signs % 2 = 1) :
    Negated (signed signs text ++ more) text
  | later {signs : Nat} {text operand : List Char} {op : Operator} {more : List Token}
    (h : Negated more operand) : Negated (signed signs text ++ .operator op :: more) operand

theorem Negated.mem {tokens : List Token} {operand : List Char} (h : Negated tokens operand) :
    .operand operand ∈ tokens := by
  induction h with
  | first hodd => simp [signed]
  | later h ih => simp [ih]

end Token

open Token

variable {resolve : List Char → Except Fault Value}

/-- The value of an operand behind signs: an odd number of them changes its sign once, and an even number
    leaves it as it is. -/
def signedValue (resolve : List Char → Except Fault Value) (signs : Nat) (text : List Char) :
    Except Fault Value :=
  (resolve text).bind fun v => if signs % 2 = 1 then negate v else .ok v

namespace Chain

/-- Operators with signed operands behind them that have values. -/
inductive Row (resolve : List Char → Except Fault Value) :
    List Token → List (Operator × Value) → Prop
  | nil : Row resolve [] []
  | cons {tokens : List Token} {rest : List (Operator × Value)} {signs : Nat} {text : List Char}
    {v : Value} (op : Operator) (hv : signedValue resolve signs text = .ok v)
    (h : Row resolve tokens rest) :
    Row resolve (.operator op :: (signed signs text ++ tokens)) ((op, v) :: rest)

theorem Row.turns {tokens : List Token} {rest : List (Operator × Value)}
    (h : Row resolve tokens rest) : Turns tokens := by
  induction h with
  | nil => exact .nil
  | cons op hv h ih => exact .cons op _ _ ih

/-! ## Reading rows -/

variable {expr : List Char} {tokens : List Token}

theorem not_decide_odd (n : Nat) : (!decide (n % 2 = 1)) = decide ((n + 1) % 2 = 1) := by
  rw [← decide_not, decide_eq_decide]
  omega

/-- A sign before a row changes whether what comes next is negated. -/
theorem readOperand_signs (done : Option (Chain × Operator)) (signs more : Nat)
    (tokens : List Token) :
    readOperand expr resolve done (decide (signs % 2 = 1))
        (List.replicate more (.operator .sub) ++ tokens)
      = readOperand expr resolve done (decide ((signs + more) % 2 = 1)) tokens := by
  induction more generalizing signs with
  | zero => rfl
  | succ more ih =>
    rw [List.replicate_succ, List.cons_append, readOperand, if_pos rfl, not_decide_odd, ih]
    congr 3
    omega

theorem readOperand_operand_signs (done : Option (Chain × Operator)) (signs : Nat)
    (text : List Char) (tokens : List Token) :
    readOperand expr resolve done (decide (signs % 2 = 1)) (.operand text :: tokens)
      = (signedValue resolve signs text).bind fun v =>
          readOperator expr resolve (behind done ⟨v, []⟩) tokens := by
  rw [readOperand_operand, signedValue]
  cases resolve text with
  | error f => rfl
  | ok v => simp [Except.bind]

theorem readOperand_signed (done : Option (Chain × Operator)) (signs : Nat) (text : List Char)
    (tokens : List Token) :
    readOperand expr resolve done false (signed signs text ++ tokens)
      = (signedValue resolve signs text).bind fun v =>
          readOperator expr resolve (behind done ⟨v, []⟩) tokens := by
  have hsigns : readOperand expr resolve done (decide (0 % 2 = 1))
        (List.replicate signs (.operator .sub) ++ .operand text :: tokens)
      = readOperand expr resolve done (decide ((0 + signs) % 2 = 1)) (.operand text :: tokens) :=
    readOperand_signs done 0 signs _
  rw [Nat.zero_add, readOperand_operand_signs] at hsigns
  rw [← hsigns, signed, List.append_assoc]
  rfl

theorem Row.readOperator_eq {rest : List (Operator × Value)} (h : Row resolve tokens rest)
    (chain : Chain) :
    readOperator expr resolve chain tokens = .ok ⟨chain.first, chain.rest ++ rest⟩ := by
  induction h generalizing chain with
  | nil => rw [readOperator, List.append_nil]
  | cons op hv h ih =>
    rw [readOperator, readOperand_signed, hv]
    show readOperator expr resolve _ _ = _
    rw [ih, behind, List.append_assoc]
    rfl

/-- What is read, where `signs` are the signs that have been read already: a signed operand and a row
    behind it, or a row alone. -/
theorem exists_row_of_read (tokens : List Token) :
    (∀ done signs c, readOperand expr resolve done (decide (signs % 2 = 1)) tokens = .ok c →
        ∃ total text v more rest,
          List.replicate signs (.operator .sub) ++ tokens = signed total text ++ more
            ∧ signedValue resolve total text = .ok v ∧ Row resolve more rest
            ∧ c = behind done ⟨v, rest⟩)
      ∧ ∀ chain c, readOperator expr resolve chain tokens = .ok c →
        ∃ rest, Row resolve tokens rest ∧ c = ⟨chain.first, chain.rest ++ rest⟩ := by
  induction tokens with
  | nil =>
    refine ⟨fun done signs c h => ?_, fun chain c h => ⟨[], .nil, ?_⟩⟩
    · cases done <;> exact absurd h (by simp [readOperand])
    · rw [readOperator, Except.ok.injEq] at h
      rw [← h, List.append_nil]
  | cons token tokens ih =>
    obtain ⟨ihOperand, ihOperator⟩ := ih
    cases token with
    | operator op =>
      refine ⟨fun done signs c h => ?_, fun chain c h => ?_⟩
      · rw [readOperand] at h
        split at h
        next hop =>
          subst hop
          rw [not_decide_odd] at h
          obtain ⟨total, text, v, more, rest, htokens, hfound⟩ := ihOperand done (signs + 1) c h
          refine ⟨total, text, v, more, rest, ?_, hfound⟩
          rw [← htokens, List.replicate_succ', List.append_assoc]
          rfl
        next => exact absurd h (by simp)
      · rw [readOperator] at h
        obtain ⟨total, text, v, more, rest, htokens, hv, hrow, rfl⟩ := ihOperand _ 0 c h
        obtain rfl : tokens = signed total text ++ more := htokens
        exact ⟨(op, v) :: rest, .cons op hv hrow, rfl⟩
    | operand text =>
      refine ⟨fun done signs c h => ?_, fun chain c h => ?_⟩
      · rw [readOperand_operand_signs] at h
        obtain ⟨v, hv, hread⟩ := exists_of_bind h
        obtain ⟨rest, hrow, rfl⟩ := ihOperator _ c hread
        refine ⟨signs, text, v, tokens, rest, by simp [signed], hv, hrow, ?_⟩
        cases done <;> simp [behind]
      · rw [readOperator] at h
        exact absurd h (by simp)

/-- A chain is read from a signed operand that has a value and a row behind it. -/
theorem read_eq_ok_iff {c : Chain} :
    read expr resolve = .ok c ↔ ∃ signs text more, Token.scan expr = signed signs text ++ more
      ∧ signedValue resolve signs text = .ok c.first ∧ Row resolve more c.rest := by
  constructor
  · intro h
    obtain ⟨signs, text, v, more, rest, hscan, hv, hrow, rfl⟩ :=
      (exists_row_of_read _).1 none 0 c h
    exact ⟨signs, text, more, hscan, hv, hrow⟩
  · rintro ⟨signs, text, more, hscan, hv, hrow⟩
    rw [read, hscan, readOperand_signed, hv]
    exact hrow.readOperator_eq _

end Chain

/-! ## Operands with values -/

/-- Every operand has a value, and every negated one counts as a number. -/
structure Valued (resolve : List Char → Except Fault Value) (tokens : List Token) : Prop where
  resolves : ∀ text, .operand text ∈ tokens → ∃ v, resolve text = .ok v
  counts : ∀ text v, Negated tokens text → resolve text = .ok v →
    (Numeric.ofValue? v).isSome = true

namespace Valued

variable {tokens : List Token} {signs : Nat} {text : List Char} {op : Operator}

theorem of_signed (h : Valued resolve (signed signs text ++ .operator op :: tokens)) :
    Valued resolve tokens where
  resolves := fun operand hmem => h.resolves operand (by simp [hmem])
  counts := fun operand v hnegated => h.counts operand v (.later hnegated)

theorem of_forall (h : ∀ text, .operand text ∈ tokens →
    ∃ v, resolve text = .ok v ∧ (Numeric.ofValue? v).isSome = true) : Valued resolve tokens where
  resolves := fun text hmem => (h text hmem).imp fun v hv => hv.1
  counts := fun text v hnegated hv => by
    obtain ⟨w, hw, hcounts⟩ := h text hnegated.mem
    rwa [Except.ok.inj (hv.symm.trans hw)]

/-- The first operand has a value behind its signs. -/
theorem exists_signedValue (h : Valued resolve (signed signs text ++ tokens)) :
    ∃ v, signedValue resolve signs text = .ok v := by
  obtain ⟨v, hv⟩ := h.resolves text (by simp [signed])
  rw [signedValue, hv]
  show ∃ w, (if signs % 2 = 1 then negate v else .ok v) = .ok w
  split
  next hodd =>
    obtain ⟨n, hn⟩ := Option.isSome_iff_exists.mp
      (h.counts text v (.first hodd) hv)
    exact ⟨n.negate.toValue, by rw [negate, Numeric.ofValue, hn]; rfl⟩
  next => exact ⟨v, rfl⟩

end Valued

namespace Chain

theorem exists_row {tokens : List Token} (h : Turns tokens)
    (hvalued : ∀ op rest, tokens = .operator op :: rest → Valued resolve rest) :
    ∃ rest, Row resolve tokens rest := by
  induction h with
  | nil => exact ⟨[], .nil⟩
  | cons op signs text h ih =>
    have hfirst := hvalued op _ rfl
    obtain ⟨v, hv⟩ := hfirst.exists_signedValue
    obtain ⟨rest, hrow⟩ := ih (by rintro op' more rfl; exact hfirst.of_signed)
    exact ⟨(op, v) :: rest, .cons op hv hrow⟩

/-- Codes of tokens that do not take turns. -/
def turnCodes : List Nat := [208, 209, 210, 211]

theorem exists_of_mem_turnCodes {f : Fault} (h : f.code ∈ turnCodes) :
    ∃ cause, f = .malformed cause := by
  have hcentury : f.kind.century = 2 := by
    rw [← f.code_div_hundred]
    simp only [turnCodes, List.mem_cons, List.not_mem_nil, or_false] at h
    omega
  cases f with
  | malformed cause => exact ⟨cause, rfl⟩
  | _ => exact absurd hcentury (by simp [Fault.kind, FaultKind.century])

/-- Where operands have values, reading fails only where tokens do not take turns. -/
theorem failsWith_of_valued {expr : List Char} (tokens : List Token) :
    (∀ done signs, Valued resolve (List.replicate signs (.operator .sub) ++ tokens) →
        FailsWith turnCodes (readOperand expr resolve done (decide (signs % 2 = 1)) tokens))
      ∧ ∀ chain, (∀ op rest, tokens = .operator op :: rest → Valued resolve rest) →
        FailsWith turnCodes (readOperator expr resolve chain tokens) := by
  induction tokens with
  | nil =>
    refine ⟨fun done signs h => ?_, fun chain h => .ok chain⟩
    cases done <;> exact .of_contains rfl
  | cons token tokens ih =>
    obtain ⟨ihOperand, ihOperator⟩ := ih
    cases token with
    | operator op =>
      refine ⟨fun done signs h => ?_, fun chain h => ?_⟩
      · rw [readOperand]
        split
        next hop =>
          rw [not_decide_odd]
          subst hop
          refine ihOperand done (signs + 1) ?_
          rwa [List.replicate_succ', List.append_assoc, List.singleton_append]
        next => exact .of_contains rfl
      · exact ihOperand _ 0 (h op tokens rfl)
    | operand text =>
      refine ⟨fun done signs h => ?_, fun chain h => .of_contains rfl⟩
      have hvalued : Valued resolve (signed signs text ++ tokens) := by
        rwa [signed, List.append_assoc]
      obtain ⟨v, hv⟩ := hvalued.exists_signedValue
      rw [readOperand_operand_signs, hv]
      exact ihOperator _ (by rintro op rest rfl; exact hvalued.of_signed)

end Chain

/-- Where every operand has a value and every negated one is a number, an expression is refused as
    malformed exactly if its tokens do not take turns. -/
theorem evaluateFlat_malformed_iff {expr : List Char} (h : Valued resolve (Token.scan expr)) :
    (∃ cause, evaluateFlat resolve expr = .error (.malformed cause)
        ∧ cause.code ∈ [208, 209, 210, 211])
      ↔ ¬ TakesTurns (Token.scan expr) := by
  constructor
  · rintro ⟨cause, herror, hcode⟩ ⟨signs, text, more, hscan, hmore⟩
    rw [hscan] at h
    obtain ⟨v, hv⟩ := h.exists_signedValue
    obtain ⟨rest, hrow⟩ := Chain.exists_row hmore (by rintro op more rfl; exact h.of_signed)
    have hread : Chain.read expr resolve = .ok ⟨v, rest⟩ :=
      Chain.read_eq_ok_iff.mpr ⟨signs, text, more, hscan, hv, hrow⟩
    -- what fails behind reading is arithmetic
    rw [evaluateFlat, hread] at herror
    have harithmetic := Chain.failsWith_value ⟨v, rest⟩ (.malformed cause) herror
    simp only [arithmeticCodes, Fault.code, List.mem_cons, List.not_mem_nil, or_false] at *
    omega
  · intro hturns
    cases hread : Chain.read expr resolve with
    | ok c =>
      obtain ⟨signs, text, more, hscan, -, hrow⟩ := Chain.read_eq_ok_iff.mp hread
      exact absurd ⟨signs, text, more, hscan, hrow.turns⟩ hturns
    | error f =>
      have hcode : f.code ∈ Chain.turnCodes :=
        (Chain.failsWith_of_valued _).1 none 0 h f hread
      obtain ⟨cause, rfl⟩ := Chain.exists_of_mem_turnCodes hcode
      exact ⟨cause, by rw [evaluateFlat, hread]; rfl, hcode⟩

/-- Words and strings that count as numbers: two of them in a row are malformed, and a remainder by zero
    is not. -/
theorem evaluateFlat_malformed_words :
    ¬ TakesTurns (Token.scan "true + -\"3\" false".toList)
      ∧ ¬ ∃ cause, evaluateFlat ({} : Scope).resolveOperand "true % -\"0\"".toList
          = .error (.malformed cause) ∧ cause.code ∈ [208, 209, 210, 211] := by
  have hscan : Token.scan "true + -\"3\" false".toList = [.operand "true".toList, .operator .add,
      .operator .sub, .operand "\"3\"".toList, .operand "false".toList] := by decide +kernel
  have hscan' : Token.scan "true % -\"0\"".toList = [.operand "true".toList, .operator .rem,
      .operator .sub, .operand "\"0\"".toList] := by decide +kernel
  have htrue : ({} : Scope).resolveOperand "true".toList = .ok (.bool true) := by cbv
  have hfalse : ({} : Scope).resolveOperand "false".toList = .ok (.bool false) := by cbv
  have hthree : ({} : Scope).resolveOperand "\"3\"".toList = .ok (.string "3") := by cbv
  have hzero : ({} : Scope).resolveOperand "\"0\"".toList = .ok (.string "0") := by cbv
  have herror : evaluateFlat ({} : Scope).resolveOperand "true + -\"3\" false".toList = .error
      (.malformed (.missingOperator "false" "true + -\"3\" false")) := by cbv
  have hvalued : Valued ({} : Scope).resolveOperand (Token.scan "true + -\"3\" false".toList) := by
    rw [hscan]
    refine Valued.of_forall fun text hmem => ?_
    simp only [List.mem_cons, Token.operand.injEq, reduceCtorEq, false_or, List.not_mem_nil,
      or_false] at hmem
    rcases hmem with rfl | rfl | rfl
    · exact ⟨_, htrue, rfl⟩
    · exact ⟨_, hthree, rfl⟩
    · exact ⟨_, hfalse, rfl⟩
  have hvalued' : Valued ({} : Scope).resolveOperand (Token.scan "true % -\"0\"".toList) := by
    rw [hscan']
    refine Valued.of_forall fun text hmem => ?_
    simp only [List.mem_cons, Token.operand.injEq, reduceCtorEq, false_or, List.not_mem_nil,
      or_false] at hmem
    rcases hmem with rfl | rfl
    · exact ⟨_, htrue, rfl⟩
    · exact ⟨_, hzero, rfl⟩
  refine ⟨(evaluateFlat_malformed_iff hvalued).mp ⟨_, herror, ?_⟩, fun h => ?_⟩
  · decide
  · refine (evaluateFlat_malformed_iff hvalued').mp h ?_
    exact ⟨0, "true".toList, _, hscan', .cons .rem 1 _ .nil⟩

end ConfigLang.Expr
