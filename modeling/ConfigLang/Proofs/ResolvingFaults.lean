import ConfigLang.Resolve

set_option autoImplicit false

/-! # Faults of resolving

Each rule of resolving has faults of its own, with codes that no other rule has. They are put
together the way the rules are: what goes on from a value fails with the codes of either part, and a
loop fails with those of a step. Main statement: the faults of all rules (`failsWith_resolve`). None of them
points at a line, and none is about a file. -/

namespace ConfigLang

/-! ## Computations that fail -/

section

variable {α β : Type} {codes more : List Nat}

/-- Every fault that a computation can end with has one of the codes. -/
def FailsWith (codes : List Nat) (x : Except Fault α) : Prop :=
  ∀ f, x = .error f → f.code ∈ codes

namespace FailsWith

theorem ok (a : α) : FailsWith codes (.ok a) :=
  fun _ h => absurd h (by simp)

theorem error {f : Fault} (h : f.code ∈ codes) : FailsWith codes (.error f : Except Fault α) := by
  intro g hg
  rwa [← Except.error.inj hg]

/-- For a given fault it is enough to look its code up. -/
theorem of_contains {f : Fault} (h : codes.contains f.code = true) :
    FailsWith codes (.error f : Except Fault α) :=
  error (List.contains_iff_mem.mp h)

theorem mono {x : Except Fault α} (h : FailsWith codes x) (hmore : codes ⊆ more) :
    FailsWith more x :=
  fun f hf => hmore (h f hf)

theorem bind {x : Except Fault α} {next : α → Except Fault β} (hx : FailsWith codes x)
    (hnext : ∀ a, FailsWith codes (next a)) : FailsWith codes (x >>= next) := by
  cases x with
  | error f => exact error (hx f rfl)
  | ok a => exact hnext a

theorem map {x : Except Fault α} (hx : FailsWith codes x) (f : α → β) :
    FailsWith codes (x.map f) := by
  cases x with
  | error g => exact error (hx g rfl)
  | ok a => exact ok (f a)

theorem of_map {x : Except Fault α} (f : α → β) (h : FailsWith codes (x.map f)) :
    FailsWith codes x := by
  intro g hg
  rw [hg] at h
  exact h g rfl

theorem mapM {f : β → Except Fault α} {items : List β}
    (h : ∀ item ∈ items, FailsWith codes (f item)) : FailsWith codes (items.mapM f) := by
  induction items with
  | nil => exact ok []
  | cons item rest ih =>
    rw [List.mapM_cons]
    refine (h item List.mem_cons_self).bind fun a => ?_
    have hrest := ih fun other hother => h other (List.mem_cons_of_mem _ hother)
    exact hrest.bind fun as => ok (a :: as)

theorem foldlM {step : β → α → Except Fault β} (h : ∀ b a, FailsWith codes (step b a)) (b : β)
    (items : List α) : FailsWith codes (items.foldlM step b) := by
  induction items generalizing b with
  | nil => exact ok b
  | cons item rest ih =>
    rw [List.foldlM_cons]
    exact (h b item).bind ih

end FailsWith

end

/-! ## Conversions -/

def conversionCodes : List Nat := [401, 402, 403, 404]

theorem Value.failsWith_toBool (v : Value) : FailsWith conversionCodes v.toBool := by
  cases v with
  | bool b => exact .ok b
  | int n => exact .ok _
  | float x => exact .ok _
  | string s =>
    unfold toBool
    dsimp only
    split
    · exact .ok _
    · exact .of_contains rfl
  | _ => exact .of_contains rfl

theorem Value.failsWith_convert (v : Value) (target : Target) :
    FailsWith conversionCodes (v.convert target) := by
  cases target with
  | int =>
    unfold convert
    dsimp only
    split
    · exact .ok _
    · exact .of_contains rfl
  | float =>
    unfold convert
    dsimp only
    split
    · exact .ok _
    · exact .of_contains rfl
  | string => exact .ok _
  | bool => exact v.failsWith_toBool.map Value.bool

theorem Target.failsWith_ofName (name : List Char) : FailsWith [409] (Target.ofName name) := by
  unfold ofName
  split
  · exact .ok _
  · exact .of_contains rfl

/-! ## References -/

def referenceCodes : List Nat := [212, 501, 502, 503, 504, 505]

theorem Value.failsWith_access (v : Value) (accessor whole : List Char) :
    FailsWith referenceCodes (v.access accessor whole) := by
  unfold access
  dsimp only
  split
  · split
    · exact .of_contains rfl
    · split
      · exact .ok _
      · exact .of_contains rfl
  · split
    · exact .of_contains rfl
    · split
      · exact .ok _
      · exact .of_contains rfl

namespace Scope

theorem failsWith_lookupPath (scope : Scope) (path : List Char) :
    FailsWith referenceCodes (scope.lookupPath path) := by
  unfold lookupPath
  split
  · exact .ok _
  · exact .of_contains rfl

theorem failsWith_resolveReference (scope : Scope) (text : List Char) :
    FailsWith referenceCodes (scope.resolveReference text) := by
  unfold resolveReference
  split
  · unfold resolveIndexed
    split
    · exact .of_contains rfl
    · exact (scope.failsWith_lookupPath _).bind
        fun v => .foldlM (fun v accessor => v.failsWith_access accessor text) v _
  · exact scope.failsWith_lookupPath text

end Scope

/-! ## Literals -/

def literalCodes : List Nat := [206]

namespace Literal

theorem failsWith_ofText (text : List Char) : FailsWith literalCodes (ofText text) := by
  unfold ofText ofTrimmed
  split
  · exact .ok _
  · exact .ok _
  · split
    · exact .ok _
    · split
      · split
        · exact .ok _
        · exact .of_contains rfl
      · exact .ok _

/-- A literal fails where one of its items does. -/
theorem failsWith_finish {codes : List Nat} (literal : Literal)
    {resolveItem : List Char → Except Fault Value}
    (h : ∀ item, FailsWith codes (resolveItem item)) :
    FailsWith codes (literal.finish resolveItem) := by
  cases literal with
  | value v => exact .ok v
  | array items => exact (FailsWith.mapM fun item _ => h item).map Value.array

end Literal

/-! ## Arithmetic -/

namespace Expr

def arithmeticCodes : List Nat := [405, 406, 407]

theorem Numeric.failsWith_ofValue (v : Value) : FailsWith arithmeticCodes (ofValue v) := by
  unfold ofValue
  split
  · exact .ok _
  · exact .of_contains rfl

theorem failsWith_compute (op : Operator) (lhs rhs : Value) :
    FailsWith arithmeticCodes (compute op lhs rhs) := by
  refine (Numeric.failsWith_ofValue lhs).bind fun a => ?_
  refine (Numeric.failsWith_ofValue rhs).bind fun b => ?_
  cases op with
  | div =>
    dsimp only
    split
    · exact .of_contains rfl
    · exact .ok _
  | rem =>
    dsimp only
    split
    · exact .of_contains rfl
    · exact .ok _
  | _ => exact .ok _

theorem failsWith_apply (op : Operator) (lhs rhs : Value) :
    FailsWith arithmeticCodes (apply op lhs rhs) := by
  unfold apply
  split
  · exact .ok _
  · exact failsWith_compute op lhs rhs

theorem failsWith_negate (v : Value) : FailsWith arithmeticCodes (negate v) :=
  (Numeric.failsWith_ofValue v).map _

/-! ## Expressions -/

/-- Codes of what is wrong with the form of an expression. -/
def formCodes : List Nat := [207, 208, 209, 210, 211, 216]

/-- Codes of expressions whose operands fail with `codes`. -/
def expressionCodes (codes : List Nat) : List Nat := formCodes ++ arithmeticCodes ++ codes

namespace Chain

theorem failsWith_fold (now : Operator → Bool) (acc : Value) (rest : List (Operator × Value)) :
    FailsWith arithmeticCodes (fold now acc rest) := by
  induction rest generalizing acc with
  | nil => exact .ok _
  | cons pair rest ih =>
    obtain ⟨op, v⟩ := pair
    rw [fold]
    split
    · exact (failsWith_apply op acc v).bind ih
    · exact (ih v).bind fun chain => .ok _

theorem failsWith_value (chain : Chain) : FailsWith arithmeticCodes chain.value :=
  (failsWith_fold _ _ _).bind fun _ => (failsWith_fold _ _ _).bind fun _ => .ok _

variable {codes : List Nat} {resolve : List Char → Except Fault Value}

/-- Reading a chain fails with its operands, or where its tokens do not take turns. -/
theorem failsWith_read (h : ∀ operand, FailsWith codes (resolve operand)) (expr : List Char)
    (tokens : List Token) :
    (∀ done negative,
        FailsWith (expressionCodes codes) (readOperand expr resolve done negative tokens))
      ∧ ∀ chain, FailsWith (expressionCodes codes) (readOperator expr resolve chain tokens) := by
  induction tokens with
  | nil =>
    refine ⟨fun done negative => ?_, fun chain => .ok chain⟩
    cases done <;> exact .of_contains rfl
  | cons token tokens ih =>
    cases token with
    | operator op =>
      refine ⟨fun done negative => ?_, fun chain => ?_⟩
      · rw [readOperand]
        split
        · exact ih.1 done (!negative)
        · exact .of_contains rfl
      · rw [readOperator]
        exact ih.1 _ false
    | operand text =>
      refine ⟨fun done negative => ?_, fun chain => ?_⟩
      · rw [readOperand]
        refine ((h text).mono (List.subset_append_right _ _)).bind fun v => ?_
        split
        · refine ((failsWith_negate v).mono ?_).bind fun w => ih.2 _
          exact List.subset_append_of_subset_left _ (List.subset_append_right _ _)
        · exact ih.2 _
      · rw [readOperator]
        exact .of_contains rfl

end Chain

section

variable {codes : List Nat} {resolve : List Char → Except Fault Value}

theorem failsWith_evaluateFlat (h : ∀ operand, FailsWith codes (resolve operand))
    (expr : List Char) : FailsWith (expressionCodes codes) (evaluateFlat resolve expr) :=
  ((Chain.failsWith_read h expr (Token.scan expr)).1 none false).bind fun chain =>
    chain.failsWith_value.mono (List.subset_append_of_subset_left _ (List.subset_append_right _ _))

/-- Replacing groups fails where a group is not closed, or with a group. -/
theorem failsWith_replaceGroups {flat : List Char → Except Fault Value}
    (h : ∀ inner, FailsWith (expressionCodes codes) (flat inner)) (limit : Nat) (expr : List Char) :
    FailsWith (expressionCodes codes) (replaceGroups flat limit expr) := by
  induction limit generalizing expr with
  | zero =>
    rw [replaceGroups]
    split
    · exact .ok _
    · split <;> exact .of_contains rfl
  | succ limit ih =>
    rw [replaceGroups]
    split
    · exact .ok _
    · split
      · exact .of_contains rfl
      · exact (h _).bind fun v => ih _

theorem failsWith_evaluate (h : ∀ operand, FailsWith codes (resolve operand)) (expr : List Char) :
    FailsWith (expressionCodes codes) (evaluate resolve expr) := by
  have hflat := failsWith_evaluateFlat h
  refine (failsWith_replaceGroups hflat _ expr).bind fun reduced => ?_
  split
  · exact .of_contains rfl
  · exact hflat reduced

end

end Expr

/-! ## All texts -/

/-- The codes of the faults of resolving a text. -/
def resolvingCodes : List Nat :=
  [206, 207, 208, 209, 210, 211, 212, 216, 401, 402, 403, 404, 405, 406, 407,
    501, 502, 503, 504, 505]

namespace Scope

/-- Resolving fails with the rule that fits, where `expression?` evaluates expressions if there can
    be any. -/
theorem failsWith_resolveBy {expression? : Option (List Char → Except Fault Value)} (scope : Scope)
    (h : ∀ evaluate ∈ expression?, ∀ expr, FailsWith resolvingCodes (evaluate expr))
    (raw : List Char) : FailsWith resolvingCodes (resolveBy expression? scope raw) := by
  fun_induction resolveBy expression? scope raw with
  | case1 => exact .ok _
  | case2 => exact .ok _
  | case3 raw hempty hexpand simple base target hconv ih =>
    exact ih.bind fun v => (v.failsWith_convert target).mono (by decide)
  | case4 raw hempty hexpand simple hconv evaluate hevaluate =>
    split at hevaluate
    · exact h evaluate hevaluate _
    · exact absurd hevaluate (by simp)
  | case5 => exact (scope.failsWith_resolveReference _).mono (by decide)
  | case6 raw hempty hexpand simple hconv hnone hreference f hliteral =>
    have hcodes : literalCodes ⊆ resolvingCodes := by decide
    exact .error (hcodes (Literal.failsWith_ofText _ f hliteral))
  | case7 => exact .ok _
  | case8 raw hempty hexpand simple hconv hnone hreference items hliteral ih =>
    exact (FailsWith.mapM fun item _ => ih item.1 item.2).bind fun values => .ok _

theorem failsWith_resolveOperand (scope : Scope) (text : List Char) :
    FailsWith resolvingCodes (scope.resolveOperand text) := by
  unfold resolveOperand
  split
  · exact (scope.failsWith_resolveReference text).mono (by decide)
  · refine ((Literal.failsWith_ofText text).mono (by decide)).bind fun literal => ?_
    exact literal.failsWith_finish (scope.failsWith_resolveBy fun _ h => absurd h (by simp))

theorem failsWith_evaluateExpression (scope : Scope) (expr : List Char) :
    FailsWith resolvingCodes (scope.evaluateExpression expr) :=
  (Expr.failsWith_evaluate scope.failsWith_resolveOperand expr).mono (by decide)

/-- Resolving a text fails with the rules that it goes through. -/
theorem failsWith_resolve (scope : Scope) (text : List Char) :
    FailsWith resolvingCodes (scope.resolve text) := by
  refine scope.failsWith_resolveBy (fun evaluate h => ?_) text
  obtain rfl := Option.some.inj h
  exact scope.failsWith_evaluateExpression

end Scope

end ConfigLang
