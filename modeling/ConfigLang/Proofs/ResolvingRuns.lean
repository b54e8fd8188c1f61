import ConfigLang.Proofs.QuietTexts

set_option autoImplicit false

/-! # Resolving without a bound

Without a bound on groups, resolving goes on as long as texts, operands and expressions lead to one
another and as long as a group is left. `Scope.Run` holds of the tasks that come to an end, with
what they end with. Main statement: where neither the tree nor the environment brings in an opening
parenthesis, every text has a run, all its runs end with its value, and an expression has no more
rounds than opening parentheses (`Scope.Ungrouped.run_ends`). -/

namespace ConfigLang

open Text
open ConfigLang.Expr (LastGroup groupText)

/-! ## Rounds of an expression -/

namespace Expr

variable {resolve : List Char → Except Fault Value} {text before inner after : List Char}
  {v : Value}

theorem evaluate_of_not_mem (h : '(' ∉ text) :
    evaluate resolve text
      = if (Scan.cutUnquoted? (· == ')') text).isSome then
          .error (.malformed (.parentheses (String.ofList text)))
        else evaluateFlat resolve text := by
  rw [evaluate, replaceGroups_of_not_mem h]
  rfl

theorem evaluate_unclosed {rest : List Char} (hopen : '(' ∉ rest) (hclose : ')' ∉ rest) :
    evaluate resolve (before ++ '(' :: rest)
      = .error (.malformed (.parentheses (String.ofList (before ++ '(' :: rest)))) := by
  rw [evaluate, replaceGroups, cutLast?_append_cons hopen]
  dsimp only
  rw [cutFirst?_of_not_mem hclose]
  rfl

namespace LastGroup

theorem count_eq (h : LastGroup text before inner after) :
    text.count '(' = before.count '(' + 1 := by
  have hinner := List.count_eq_zero.mpr h.open_not_mem_inner
  have hafter := List.count_eq_zero.mpr h.open_not_mem_after
  rw [h.text_eq]
  simp [hinner, hafter]

/-- A text without opening parentheses takes one away. -/
theorem count_replaced (h : LastGroup text before inner after) (hv : '(' ∉ groupText v) :
    (before ++ groupText v ++ after).count '(' + 1 = text.count '(' := by
  have hvalue := List.count_eq_zero.mpr hv
  have hafter := List.count_eq_zero.mpr h.open_not_mem_after
  rw [h.count_eq, List.count_append, List.count_append, hvalue, hafter]

theorem evaluate_failed (h : LastGroup text before inner after) {f : Fault}
    (hinner : evaluateFlat resolve inner = .error f) : evaluate resolve text = .error f := by
  have hlimit : text.count '(' + groupsFromStrings
      = before.count '(' + groupsFromStrings + 1 := by rw [h.count_eq]; omega
  rw [evaluate, hlimit, h.replaceGroups_eq, hinner]
  rfl

theorem replaceGroups_of_ok (h : LastGroup text before inner after)
    {flat : List Char → Except Fault Value} (hinner : flat inner = .ok v) (limit : Nat) :
    replaceGroups flat (limit + 1) text
      = replaceGroups flat limit (before ++ groupText v ++ after) := by
  rw [h.replaceGroups_eq, hinner]
  rfl

/-- The expression goes on with the text of a value in place of its last group. -/
theorem evaluate_replaced (h : LastGroup text before inner after)
    (hinner : evaluateFlat resolve inner = .ok v) (hv : '(' ∉ groupText v) :
    evaluate resolve text = evaluate resolve (before ++ groupText v ++ after) := by
  have hlimit : text.count '(' + groupsFromStrings
      = (before ++ groupText v ++ after).count '(' + groupsFromStrings + 1 := by
    rw [← h.count_replaced hv]
    omega
  rw [evaluate, hlimit, h.replaceGroups_of_ok hinner, evaluate]

end LastGroup

end Expr

/-! ## Rules -/

/-- The rule that gives a trimmed text its value. -/
inductive Rule where
  | nothing
  | expansion (v : Value)
  | conversion (base : List Char) (target : Target)
  | expression
  | reference
  | literal

namespace Scope

/-- The first rule that fits a trimmed text. -/
def rule (scope : Scope) (text : List Char) : Rule :=
  if text.isEmpty then .nothing
  else
    match scope.env.expand? text with
    | some v => .expansion v
    | none =>
      if isSimpleLiteral text then .literal
      else
        match conversion? text with
        | some (base, target) => .conversion base target
        | none =>
          if hasOperator text then .expression
          else if isReference text then .reference
          else .literal

/-- Resolving a text goes by its rule. -/
theorem resolve_eq_rule (scope : Scope) (raw : List Char) :
    scope.resolve raw
      = match scope.rule (trim raw) with
        | .nothing => .ok .null
        | .expansion v => .ok v
        | .conversion base target => scope.resolve base >>= (·.convert target)
        | .expression => scope.evaluateExpression (trim raw)
        | .reference => scope.resolveReference (trim raw)
        | .literal => Literal.ofText (trim raw) >>= (·.finish scope.resolve) := by
  rw [resolve, resolveBy_eq, rule]
  by_cases hempty : (trim raw).isEmpty = true
  · rw [if_pos hempty, if_pos hempty]
  · rw [if_neg hempty, if_neg hempty]
    cases scope.env.expand? (trim raw) with
    | some v => rfl
    | none =>
      dsimp only
      by_cases hsimple : isSimpleLiteral (trim raw) = true
      · rw [if_pos hsimple, if_pos hsimple, hsimple, isReference_of_simple hsimple]
        rfl
      · rw [Bool.not_eq_true] at hsimple
        rw [hsimple]
        simp only [Bool.false_eq_true, if_false, Bool.not_false, Bool.true_and]
        cases conversion? (trim raw) with
        | some sides => rfl
        | none =>
          dsimp only
          by_cases hoperator : hasOperator (trim raw) = true
          · rw [if_pos hoperator, if_pos hoperator]
          · rw [if_neg hoperator, if_neg hoperator]
            dsimp only
            split <;> rfl

theorem conversion?_of_rule {scope : Scope} {text base : List Char} {target : Target}
    (h : scope.rule text = .conversion base target) : conversion? text = some (base, target) := by
  revert h
  fun_cases rule scope text with
  | case4 _ _ _ base' target' hconv =>
    rintro ⟨⟩
    exact hconv
  | _ => exact nofun

theorem hasOperator_of_rule {scope : Scope} {text : List Char} (h : scope.rule text = .expression) :
    hasOperator text = true := by
  revert h
  fun_cases rule scope text with
  | case5 _ _ _ _ hoperator => exact fun _ => hoperator
  | _ => exact nofun

/-! ## Runs -/

/-- What resolving is about at a time. An expression counts its rounds: each looks for the last
    group and puts the text of its value in its place. -/
inductive Task where
  | text (raw : List Char)
  | operand (text : List Char)
  | chain (expr : List Char)
  | expression (rounds : Nat) (expr : List Char)

/-- Tasks that come to an end, with what they end with. Items and operands all come to an end, those
    behind a fault too; `values` holds what they end with. -/
inductive Run (scope : Scope) : Task → Except Fault Value → Prop
  | nothing {raw : List Char} (hrule : scope.rule (trim raw) = .nothing) :
      Run scope (.text raw) (.ok .null)
  | expansion {raw : List Char} {v : Value} (hrule : scope.rule (trim raw) = .expansion v) :
      Run scope (.text raw) (.ok v)
  | conversion {raw base : List Char} {target : Target} {outcome : Except Fault Value}
      (hrule : scope.rule (trim raw) = .conversion base target)
      (hbase : Run scope (.text base) outcome) :
      Run scope (.text raw) (outcome >>= (·.convert target))
  | expression {raw : List Char} {rounds : Nat} {outcome : Except Fault Value}
      (hrule : scope.rule (trim raw) = .expression)
      (hexpr : Run scope (.expression rounds (trim raw)) outcome) : Run scope (.text raw) outcome
  | reference {raw : List Char} (hrule : scope.rule (trim raw) = .reference) :
      Run scope (.text raw) (scope.resolveReference (trim raw))
  | literal {raw : List Char} (values : List Char → Except Fault Value)
      (hrule : scope.rule (trim raw) = .literal)
      (hitems : ∀ items, Literal.ofText (trim raw) = .ok (.array items) →
        ∀ item ∈ items, Run scope (.text item) (values item)) :
      Run scope (.text raw) (Literal.ofText (trim raw) >>= (·.finish values))
  | referenceOperand {text : List Char} (hreference : isReference text = true) :
      Run scope (.operand text) (scope.resolveReference text)
  | literalOperand {text : List Char} (values : List Char → Except Fault Value)
      (hreference : isReference text = false)
      (hitems : ∀ items, Literal.ofText text = .ok (.array items) →
        ∀ item ∈ items, Run scope (.text item) (values item)) :
      Run scope (.operand text) (Literal.ofText text >>= (·.finish values))
  | chain {expr : List Char} (values : List Char → Except Fault Value)
      (hoperands : ∀ text, .operand text ∈ Expr.Token.scan expr →
        Run scope (.operand text) (values text)) :
      Run scope (.chain expr) (Expr.evaluateFlat values expr)
  | reduced {expr : List Char} {outcome : Except Fault Value} (hopen : '(' ∉ expr)
      (hclose : (Scan.cutUnquoted? (· == ')') expr).isSome = false)
      (hchain : Run scope (.chain expr) outcome) : Run scope (.expression 0 expr) outcome
  | unopened {expr : List Char} (hopen : '(' ∉ expr)
      (hclose : (Scan.cutUnquoted? (· == ')') expr).isSome = true) :
      Run scope (.expression 0 expr) (.error (.malformed (.parentheses (String.ofList expr))))
  | unclosed {before rest : List Char} (hopen : '(' ∉ rest) (hclose : ')' ∉ rest) :
      Run scope (.expression 1 (before ++ '(' :: rest))
        (.error (.malformed (.parentheses (String.ofList (before ++ '(' :: rest)))))
  | failed {expr before inner after : List Char} {f : Fault}
      (hgroup : LastGroup expr before inner after) (hinner : Run scope (.chain inner) (.error f)) :
      Run scope (.expression 1 expr) (.error f)
  | replaced {expr before inner after : List Char} {v : Value} {rounds : Nat}
      {outcome : Except Fault Value} (hgroup : LastGroup expr before inner after)
      (hinner : Run scope (.chain inner) (.ok v))
      (hrest : Run scope (.expression rounds (before ++ groupText v ++ after)) outcome) :
      Run scope (.expression (rounds + 1) expr) outcome

/-- The value of an operand, whose items may be any texts. -/
def operandValue (scope : Scope) (text : List Char) : Except Fault Value :=
  if isReference text then scope.resolveReference text else scope.decodeLiteral text

/-- What resolving gives for a task. -/
def outcome (scope : Scope) : Task → Except Fault Value
  | .text raw => scope.resolve raw
  | .operand text => scope.operandValue text
  | .chain expr => Expr.evaluateFlat scope.resolveOperand expr
  | .expression _ expr => scope.evaluateExpression expr

theorem operandValue_eq {scope : Scope} {expr operand : List Char}
    (h : .operand operand ∈ Expr.Token.scan expr) :
    scope.operandValue operand = scope.resolveOperand operand := by
  unfold operandValue resolveOperand
  split
  · rfl
  · refine Literal.finish_congr fun items hliteral item hitem => ?_
    rcases quoted_or_quiet_of_mem_scan h with hquoted | hquiet
    · exact absurd hliteral (Literal.ofText_ne_array hquoted items)
    · obtain ⟨-, rfl⟩ := Literal.eq_itemTexts_of_ofText hliteral
      exact resolveBy_of_quiet _ scope ((hquiet.of_isInfix (infix_trim _)).item hitem)

/-! ## Every text has a run -/

section

variable {scope : Scope}

theorem Run.of_rule {raw : List Char}
    (hconversion : ∀ base target, scope.rule (trim raw) = .conversion base target →
      scope.Run (.text base) (scope.resolve base))
    (hexpr : scope.rule (trim raw) = .expression →
      ∃ rounds, scope.Run (.expression rounds (trim raw)) (scope.evaluateExpression (trim raw)))
    (hitems : ∀ items, Literal.ofText (trim raw) = .ok (.array items) →
      ∀ item ∈ items, scope.Run (.text item) (scope.resolve item)) :
    scope.Run (.text raw) (scope.resolve raw) := by
  rw [resolve_eq_rule]
  cases hrule : scope.rule (trim raw) with
  | nothing => exact .nothing hrule
  | expansion v => exact .expansion hrule
  | conversion base target => exact .conversion hrule (hconversion base target hrule)
  | expression =>
    obtain ⟨rounds, hrun⟩ := hexpr hrule
    exact .expression hrule hrun
  | reference => exact .reference hrule
  | literal => exact .literal scope.resolve hrule hitems

/-- A text has a run as soon as the expressions have that it may meet. -/
theorem Run.of_expressions {raw : List Char}
    (hexpr : ¬IsQuiet raw → ∀ expr,
      ∃ rounds, scope.Run (.expression rounds expr) (scope.evaluateExpression expr)) :
    scope.Run (.text raw) (scope.resolve raw) := by
  induction hlength : raw.length using Nat.strong_induction_on generalizing raw with
  | _ length ih =>
    subst hlength
    have hlength := length_trim_le raw
    have htrim : IsQuiet raw → IsQuiet (trim raw) := fun h => h.of_isInfix (infix_trim raw)
    refine .of_rule (fun base target hrule => ?conversion) (fun hrule => ?expression)
      fun items hliteral item hitem => ?item
    case conversion =>
      have hconv := conversion?_of_rule hrule
      have hlt := length_conversion? hconv
      exact ih base.length (by omega)
        (fun hloud => hexpr fun h => hloud ((htrim h).of_isInfix (infix_of_conversion? hconv))) rfl
    case expression =>
      refine hexpr (fun h => ?_) (trim raw)
      have hoperator := hasOperator_of_rule hrule
      rw [(htrim h).hasOperator_eq] at hoperator
      exact absurd hoperator (by decide)
    case item =>
      have hlt := Literal.length_lt_of_ofText hliteral hitem
      obtain ⟨-, rfl⟩ := Literal.eq_itemTexts_of_ofText hliteral
      exact ih item.length (by omega)
        (fun hloud => hexpr fun h =>
          hloud (((htrim h).of_isInfix (infix_trim _)).item hitem)) rfl

theorem run_operand {expr operand : List Char} (h : .operand operand ∈ Expr.Token.scan expr) :
    scope.Run (.operand operand) (scope.operandValue operand) := by
  unfold operandValue
  split
  next hreference => exact .referenceOperand hreference
  next hreference =>
    refine .literalOperand scope.resolve (Bool.eq_false_iff.mpr hreference)
      fun items hliteral item hitem => .of_expressions fun hloud => ?_
    rcases quoted_or_quiet_of_mem_scan h with hquoted | hquiet
    · exact absurd hliteral (Literal.ofText_ne_array hquoted items)
    · obtain ⟨-, rfl⟩ := Literal.eq_itemTexts_of_ofText hliteral
      exact absurd ((hquiet.of_isInfix (infix_trim _)).item hitem) hloud

theorem run_chain (expr : List Char) :
    scope.Run (.chain expr) (Expr.evaluateFlat scope.resolveOperand expr) := by
  rw [← Expr.evaluateFlat_congr fun operand hmem => operandValue_eq hmem]
  exact .chain scope.operandValue fun operand hmem => run_operand hmem

/-- An expression has a run: each round takes an opening parenthesis away. -/
theorem Ungrouped.run_expression (h : scope.Ungrouped) (expr : List Char) :
    ∃ rounds, scope.Run (.expression rounds expr) (scope.evaluateExpression expr) := by
  induction hcount : expr.count '(' generalizing expr with
  | zero =>
    have hopen := List.count_eq_zero.mp hcount
    rw [evaluateExpression, Expr.evaluate_of_not_mem hopen]
    split
    next hclose => exact ⟨0, .unopened hopen hclose⟩
    next hclose => exact ⟨0, .reduced hopen (Bool.eq_false_iff.mpr hclose) (run_chain expr)⟩
  | succ count ih =>
    have hmem : '(' ∈ expr := List.count_pos_iff.mp (by omega)
    cases hopen : cutLast? '(' expr with
    | none => exact absurd hmem (not_mem_of_cutLast? hopen)
    | some sides =>
      obtain ⟨before, rest⟩ := sides
      cases hclose : cutFirst? ')' rest with
      | none =>
        obtain ⟨rfl, hrest⟩ := cutLast?_eq_some hopen
        have hclose := not_mem_of_cutFirst? hclose
        rw [evaluateExpression, Expr.evaluate_unclosed hrest hclose]
        exact ⟨1, .unclosed hrest hclose⟩
      | some sides =>
        obtain ⟨inner, after⟩ := sides
        have hgroup := Expr.lastGroup_of_cut hopen hclose
        have hrun := @run_chain scope inner
        cases hinner : Expr.evaluateFlat scope.resolveOperand inner with
        | error f =>
          rw [hinner] at hrun
          rw [evaluateExpression, hgroup.evaluate_failed hinner]
          exact ⟨1, .failed hgroup hrun⟩
        | ok v =>
          rw [hinner] at hrun
          have hv := (h.evaluateFlat hgroup.open_not_mem_inner hinner).open_not_mem_groupText
          have hless := hgroup.count_replaced hv
          obtain ⟨rounds, hrest⟩ := ih (before ++ groupText v ++ after) (by omega)
          rw [evaluateExpression, hgroup.evaluate_replaced hinner hv]
          exact ⟨rounds + 1, .replaced hgroup hrun hrest⟩

theorem Ungrouped.run_text (h : scope.Ungrouped) (raw : List Char) :
    scope.Run (.text raw) (scope.resolve raw) :=
  .of_expressions fun _ => h.run_expression

/-! ## No other runs -/

namespace Run

variable {task : Task} {outcome : Except Fault Value}

/-- What a task ends with is what resolving gives for it. -/
theorem outcome_eq (h : scope.Ungrouped) (hrun : scope.Run task outcome) :
    outcome = scope.outcome task := by
  induction hrun with
  | nothing hrule => rw [Scope.outcome, resolve_eq_rule, hrule]
  | expansion hrule => rw [Scope.outcome, resolve_eq_rule, hrule]
  | conversion hrule hbase ih => rw [Scope.outcome, resolve_eq_rule, hrule, ih]; rfl
  | expression hrule hexpr ih => rw [ih, Scope.outcome, Scope.outcome, resolve_eq_rule, hrule]
  | reference hrule => rw [Scope.outcome, resolve_eq_rule, hrule]
  | literal values hrule hitems ih =>
    rw [Scope.outcome, resolve_eq_rule, hrule]
    exact Literal.finish_congr ih
  | referenceOperand hreference => rw [Scope.outcome, operandValue, if_pos hreference]
  | literalOperand values hreference hitems ih =>
    rw [Scope.outcome, operandValue, hreference]
    exact Literal.finish_congr ih
  | chain values hoperands ih =>
    exact Expr.evaluateFlat_congr fun operand hmem => (ih operand hmem).trans (operandValue_eq hmem)
  | reduced hopen hclose hchain ih =>
    rw [ih, Scope.outcome, Scope.outcome, evaluateExpression, Expr.evaluate_of_not_mem hopen,
      hclose]
    rfl
  | unopened hopen hclose =>
    rw [Scope.outcome, evaluateExpression, Expr.evaluate_of_not_mem hopen, if_pos hclose]
  | unclosed hopen hclose =>
    rw [Scope.outcome, evaluateExpression, Expr.evaluate_unclosed hopen hclose]
  | failed hgroup hinner ih =>
    rw [Scope.outcome, evaluateExpression, hgroup.evaluate_failed ih.symm]
  | replaced hgroup hinner hrest ihInner ihRest =>
    have hv := (h.evaluateFlat hgroup.open_not_mem_inner ihInner.symm).open_not_mem_groupText
    rw [ihRest, Scope.outcome, Scope.outcome, evaluateExpression, evaluateExpression,
      hgroup.evaluate_replaced ihInner.symm hv]

end Run

/-- Whether an expression has no more rounds than opening parentheses. -/
def Task.RoundsWithin : Task → Prop
  | .expression rounds expr => rounds ≤ expr.count '('
  | _ => True

theorem Run.roundsWithin (h : scope.Ungrouped) {task : Task} {outcome : Except Fault Value}
    (hrun : scope.Run task outcome) : task.RoundsWithin := by
  induction hrun with
  | reduced => exact Nat.zero_le _
  | unopened => exact Nat.zero_le _
  | unclosed => exact List.one_le_count_iff.mpr (by simp)
  | failed hgroup =>
    rw [Task.RoundsWithin, hgroup.count_eq]
    exact Nat.le_add_left 1 _
  | replaced hgroup hinner hrest ihInner ihRest =>
    have hinner := (hinner.outcome_eq h).symm
    have hv := (h.evaluateFlat hgroup.open_not_mem_inner hinner).open_not_mem_groupText
    rw [Task.RoundsWithin, ← hgroup.count_replaced hv]
    exact Nat.succ_le_succ ihRest
  | _ => trivial

/-- Where nothing brings in an opening parenthesis, resolving comes to an end: a text has runs that
    end with its value and no others, and so has an expression, of no more rounds than it has
    opening parentheses. -/
theorem Ungrouped.run_ends (h : scope.Ungrouped) :
    (∀ raw outcome, scope.Run (.text raw) outcome ↔ outcome = scope.resolve raw)
      ∧ (∀ expr, ∃ rounds, scope.Run (.expression rounds expr) (scope.evaluateExpression expr))
      ∧ ∀ rounds expr outcome, scope.Run (.expression rounds expr) outcome →
          outcome = scope.evaluateExpression expr ∧ rounds ≤ expr.count '(' := by
  refine ⟨fun raw outcome => ⟨fun hrun => hrun.outcome_eq h, ?_⟩, h.run_expression, ?_⟩
  · rintro rfl
    exact h.run_text raw
  · exact fun rounds expr outcome hrun => ⟨hrun.outcome_eq h, hrun.roundsWithin h⟩

/-- A document with a string, an array and an object in it, and a variable. -/
def greetings : Scope where
  tree := ⟨[("greeting", .string "hello"), ("names", .array [.string "world", .int 2]),
    ("site", .object [("port", .int 80)])]⟩
  env := ⟨[("HOME", "/home")]⟩

theorem run_ends_greetings :
    greetings.Ungrouped
      ∧ greetings.Run (.text "greeting + ' (' + (names[0]) + ')'".toList)
          (greetings.resolve "greeting + ' (' + (names[0]) + ')'".toList)
      ∧ ∀ rounds outcome,
          greetings.Run (.expression rounds "((site.port) + 1) * names[1]".toList) outcome →
            rounds ≤ 2 := by
  have hscope : greetings.Ungrouped := by
    refine ⟨by decide +kernel, fun name held hheld => ?_⟩
    obtain ⟨front, back, hvars, -⟩ := List.lookup_eq_some_iff.mp hheld
    have hmem : (name, held) ∈ greetings.env.vars := by simp [hvars]
    obtain ⟨-, rfl⟩ := Prod.mk.inj (List.mem_singleton.mp hmem)
    decide
  refine ⟨hscope, (hscope.run_ends.1 _ _).mpr rfl, fun rounds outcome hrun => ?_⟩
  exact (hscope.run_ends.2.2 rounds _ outcome hrun).2

end

end Scope

end ConfigLang
