import ConfigLang.Proofs.VisibleText
import ConfigLang.Resolve

set_option autoImplicit false

/-! # The values of shared texts

The value of a shared text is the same in both environments, unless a string that an expression takes
up is read as part of it. That cannot happen while groups stay apart from strings (`groupsApart`), so
under this condition a replaced group leaves an expression visible (`Visible.replaceGroups`). Main
statement: the values are the same if the groups of all expressions stay apart (`resolve_congr`). -/

namespace ConfigLang

open Text Scan

/-! ## Groups -/

namespace Expr

/-- Whether groups stay apart from strings while they are replaced: the parentheses of each stand
    outside quotes, and the text that takes its place leaves no quote open and shows no dollar sign
    outside quotes. -/
def groupsApart (flat : List Char → Except Fault Value) (limit : Nat) (expr : List Char) : Bool :=
  match cutLast? '(' expr with
  | none => true
  | some (before, rest) =>
    match cutFirst? ')' rest with
    | none => true
    | some (inner, after) =>
      Quotes.closed before && Quotes.closed inner
        && match limit, flat inner with
          | limit + 1, .ok v =>
            Quotes.closed (groupText v) && !(({} : Quotes).mask (groupText v)).contains '$'
              && groupsApart flat limit (before ++ groupText v ++ after)
          | _, _ => true

theorem lastGroup_of_cut {text before rest inner after : List Char}
    (hopen : cutLast? '(' text = some (before, rest))
    (hclose : cutFirst? ')' rest = some (inner, after)) : LastGroup text before inner after := by
  obtain ⟨htext, hrest⟩ := cutLast?_eq_some hopen
  obtain ⟨rfl, hinner⟩ := cutFirst?_eq_some hclose
  simp only [List.mem_append, List.mem_cons, not_or] at hrest
  exact ⟨htext, hrest.1, hinner, hrest.2.2⟩

end Expr

section

variable {env₁ env₂ : Environment}

/-- Replacing groups that stay apart from strings gives the same text, visible again. -/
theorem Visible.replaceGroups {flat₁ flat₂ : List Char → Except Fault Value}
    (hflat : ∀ t, Visible env₁ env₂ t → flat₁ t = flat₂ t) {limit : Nat} {text : List Char}
    (h : Visible env₁ env₂ text) (hapart : Expr.groupsApart flat₁ limit text = true) :
    Expr.replaceGroups flat₁ limit text = Expr.replaceGroups flat₂ limit text
      ∧ ∀ reduced, Expr.replaceGroups flat₁ limit text = .ok reduced → Visible env₁ env₂ reduced := by
  induction limit generalizing text with
  | zero =>
    rw [Expr.replaceGroups, Expr.replaceGroups]
    cases cutLast? '(' text with
    | none => exact ⟨rfl, fun reduced hreduced => Except.ok.inj hreduced ▸ h⟩
    | some sides =>
      dsimp only
      cases cutFirst? ')' sides.2 <;> exact ⟨rfl, fun reduced hreduced => absurd hreduced (by simp)⟩
  | succ limit ih =>
    cases hopen : cutLast? '(' text with
    | none =>
      rw [Expr.replaceGroups, Expr.replaceGroups, hopen]
      exact ⟨rfl, fun reduced hreduced => Except.ok.inj hreduced ▸ h⟩
    | some sides =>
      obtain ⟨before, rest⟩ := sides
      cases hclose : cutFirst? ')' rest with
      | none =>
        rw [Expr.replaceGroups, Expr.replaceGroups, hopen]
        dsimp only
        rw [hclose]
        exact ⟨rfl, fun reduced hreduced => absurd hreduced (by simp)⟩
      | some sides =>
        obtain ⟨inner, after⟩ := sides
        have hgroup := Expr.lastGroup_of_cut hopen hclose
        rw [Expr.groupsApart, hopen] at hapart
        dsimp only at hapart
        rw [hclose] at hapart
        simp only [Bool.and_eq_true] at hapart
        obtain ⟨⟨hbefore, hinner⟩, hvalue⟩ := hapart
        rw [hgroup.replaceGroups_eq, hgroup.replaceGroups_eq,
          ← hflat inner (h.of_inner hgroup hbefore hinner)]
        cases hv : flat₁ inner with
        | error f => exact ⟨rfl, fun reduced hreduced => absurd hreduced (by simp [Except.bind])⟩
        -- the value is the same in both, and its text keeps the expression visible
        | ok v =>
          rw [hv] at hvalue
          simp only [Bool.and_eq_true, Bool.not_eq_true', List.contains_eq_mem,
            decide_eq_false_iff_not] at hvalue
          obtain ⟨⟨hclosed, hdollar⟩, hrest⟩ := hvalue
          exact ih (h.replaced hgroup hbefore hinner hclosed hdollar) hrest

theorem Visible.evaluate {resolve₁ resolve₂ : List Char → Except Fault Value} {text : List Char}
    (hresolve : ∀ operand, Expr.Token.IsQuoted operand ∨ Shared env₁ env₂ operand →
      resolve₁ operand = resolve₂ operand)
    (h : Visible env₁ env₂ text)
    (hapart : Expr.groupsApart (Expr.evaluateFlat resolve₁)
      (text.count '(' + Expr.groupsFromStrings) text = true) :
    Expr.evaluate resolve₁ text = Expr.evaluate resolve₂ text := by
  have hflat : ∀ t, Visible env₁ env₂ t → Expr.evaluateFlat resolve₁ t = Expr.evaluateFlat resolve₂ t :=
    fun t ht => Expr.evaluateFlat_congr fun operand hmem => hresolve operand (ht.shared_operand hmem)
  rw [Expr.evaluate, Expr.evaluate]
  generalize text.count '(' + Expr.groupsFromStrings = limit at hapart ⊢
  obtain ⟨hreplaced, hvisible⟩ := h.replaceGroups hflat hapart
  rw [← hreplaced]
  cases hreduced : Expr.replaceGroups (Expr.evaluateFlat resolve₁) limit text with
  | error f => rfl
  | ok reduced =>
    show (if _ then _ else _) = (if _ then _ else _)
    rw [hflat reduced (hvisible reduced hreduced)]

end

/-! ## Texts -/

/-- A text that begins with a quote is no array. -/
theorem Literal.ofText_ne_array {text : List Char} (h : Expr.Token.IsQuoted text)
    (items : List (List Char)) : ofText text ≠ .ok (.array items) := by
  intro harray
  obtain ⟨q, rest, rfl, hq⟩ := h
  obtain ⟨rest, htrim⟩ := trim_cons_of_not_blank (Text.isBlank_of_isQuote hq) rest
  obtain ⟨inner, hinner⟩ := Option.isSome_iff_exists.mp (eq_itemTexts_of_ofText harray).1
  rw [htrim] at hinner
  obtain rfl := (List.cons.inj (between?_eq_some hinner)).1
  exact absurd hq (by decide)

namespace Scope

variable {env₁ env₂ : Environment}

/-- The expressions that resolving a text evaluates, where `expression?` evaluates them if there can
    be any. -/
def evaluatedBy (expression? : Option (List Char → Except Fault Value)) (scope : Scope)
    (raw : List Char) : List (List Char) :=
  if (trim raw).isEmpty || (Environment.reference? (trim raw)).isSome then []
  else
    match _hconv : if isSimpleLiteral (trim raw) then none else conversion? (trim raw) with
    | some (base, _) => evaluatedBy expression? scope base
    | none =>
      if !isSimpleLiteral (trim raw) && hasOperator (trim raw) && expression?.isSome then [trim raw]
      else if isReference (trim raw) then []
      else
        match _hlit : Literal.ofText (trim raw) with
        -- an item is not resolved behind one that fails
        | .ok (.array items) =>
          items.attach.foldr
            (fun item later => evaluatedBy expression? scope item.1
              ++ if (resolveBy expression? scope item.1).isOk then later else []) []
        | _ => []
termination_by raw.length
decreasing_by
  · have htrim := Text.length_trim_le raw
    split at _hconv
    · simp at _hconv
    · have := length_conversion? _hconv
      omega
  · have htrim := Text.length_trim_le raw
    have := Literal.length_lt_of_ofText _hlit item.2
    omega

theorem infix_of_conversion? {text base : List Char} {target : Target}
    (h : conversion? text = some (base, target)) : base <:+: text := by
  simp only [conversion?, Option.bind_eq_some_iff, Option.map_eq_some_iff, Prod.exists,
    Prod.mk.injEq] at h
  obtain ⟨before, suffix, hcut, target', -, rfl, -⟩ := h
  obtain ⟨rfl, -⟩ := cutLast?_eq_some hcut
  exact (List.prefix_append _ _).isInfix

/-- The rules for a text that is neither empty nor a reference to a variable. -/
theorem resolveBy_of_not_done {expression? : Option (List Char → Except Fault Value)} {scope : Scope}
    {raw : List Char}
    (h : ¬ ((trim raw).isEmpty || (Environment.reference? (trim raw)).isSome) = true) :
    resolveBy expression? scope raw
      = match (if isSimpleLiteral (trim raw) then none else conversion? (trim raw)) with
        | some (base, target) => do
          let v ← resolveBy expression? scope base
          v.convert target
        | none =>
          match (if !isSimpleLiteral (trim raw) && hasOperator (trim raw)
            then expression? else none) with
          | some evaluate => evaluate (trim raw)
          | none =>
            if isReference (trim raw) then scope.resolveReference (trim raw)
            else Literal.ofText (trim raw) >>= (·.finish (resolveBy expression? scope)) := by
  rw [Bool.or_eq_true, not_or, Bool.not_eq_true, Bool.not_eq_true, Option.isSome_eq_false_iff,
    Option.isNone_iff_eq_none] at h
  have hexpand : scope.env.expand? (trim raw) = none := by rw [Environment.expand?, h.2]; rfl
  rw [resolveBy_eq, h.1, hexpand]
  rfl

/-- The rules for a text that is neither converted nor an expression. -/
theorem resolveBy_of_plain {expression? : Option (List Char → Except Fault Value)} {scope : Scope}
    {raw : List Char}
    (hdone : ¬ ((trim raw).isEmpty || (Environment.reference? (trim raw)).isSome) = true)
    (hconv : (if isSimpleLiteral (trim raw) then none else conversion? (trim raw)) = none)
    (hoperator :
      ¬ (!isSimpleLiteral (trim raw) && hasOperator (trim raw) && expression?.isSome) = true) :
    resolveBy expression? scope raw
      = if isReference (trim raw) then scope.resolveReference (trim raw)
        else Literal.ofText (trim raw) >>= (·.finish (resolveBy expression? scope)) := by
  have hnone : (if !isSimpleLiteral (trim raw) && hasOperator (trim raw)
      then expression? else none) = none := by
    split
    next hpos => simpa [hpos] using hoperator
    next => rfl
  rw [resolveBy_of_not_done hdone, hconv]
  dsimp only
  rw [hnone]

section

variable {tree : Tree} {path : List String}
  {evaluate₁? evaluate₂? : Option (List Char → Except Fault Value)}

/-- Items are resolved up to the first fault. -/
theorem mapM_resolveBy_congr {items : List (List Char)}
    (hitems : ∀ item ∈ items,
      (∀ expr ∈ evaluatedBy evaluate₁? ⟨tree, path, env₁⟩ item, Shared env₁ env₂ expr →
        evaluate₁?.map (· expr) = evaluate₂?.map (· expr)) →
      resolveBy evaluate₁? ⟨tree, path, env₁⟩ item = resolveBy evaluate₂? ⟨tree, path, env₂⟩ item)
    (heval : ∀ expr ∈ items.foldr
        (fun item later => evaluatedBy evaluate₁? ⟨tree, path, env₁⟩ item
          ++ if (resolveBy evaluate₁? ⟨tree, path, env₁⟩ item).isOk then later else []) [],
      Shared env₁ env₂ expr → evaluate₁?.map (· expr) = evaluate₂?.map (· expr)) :
    items.mapM (resolveBy evaluate₁? ⟨tree, path, env₁⟩)
      = items.mapM (resolveBy evaluate₂? ⟨tree, path, env₂⟩) := by
  induction items with
  | nil => rfl
  | cons item rest ih =>
    rw [List.foldr_cons] at heval
    have hitem := hitems item List.mem_cons_self
      fun expr hmem => heval expr (List.mem_append_left _ hmem)
    rw [List.mapM_cons, List.mapM_cons, ← hitem]
    cases hv : resolveBy evaluate₁? ⟨tree, path, env₁⟩ item with
    | error f => rfl
    | ok v =>
      rw [hv] at heval
      rw [ih (fun other hother => hitems other (List.mem_cons_of_mem _ hother))
        fun expr hmem => heval expr (List.mem_append_right _ hmem)]

/-- A shared text has the same value in both environments if its expressions have. -/
theorem resolveBy_congr (hsome : evaluate₁?.isSome = evaluate₂?.isSome) {raw : List Char}
    (h : Shared env₁ env₂ raw)
    (heval : ∀ expr ∈ evaluatedBy evaluate₁? ⟨tree, path, env₁⟩ raw, Shared env₁ env₂ expr →
      evaluate₁?.map (· expr) = evaluate₂?.map (· expr)) :
    resolveBy evaluate₁? ⟨tree, path, env₁⟩ raw = resolveBy evaluate₂? ⟨tree, path, env₂⟩ raw := by
  -- one case for each rule of resolving, in their order
  fun_induction evaluatedBy evaluate₁? ⟨tree, path, env₁⟩ raw with
  | case1 raw hdone =>
    rw [resolveBy_eq, resolveBy_eq, ← (h.of_isInfix (infix_trim raw)).expand?_eq]
    split
    · rfl
    next hempty =>
      cases hexpand : env₁.expand? (trim raw) with
      | some v => rfl
      | none =>
        rw [Environment.expand?, Option.map_eq_none_iff] at hexpand
        rw [hexpand] at hdone
        exact absurd hdone (by simpa using hempty)
  | case2 raw hdone base target hconv ih =>
    rw [dite_eq_ite] at hconv
    have hbase : Shared env₁ env₂ base := by
      split at hconv
      · exact absurd hconv (by simp)
      · exact h.of_isInfix ((infix_of_conversion? hconv).trans (infix_trim raw))
    rw [resolveBy_of_not_done hdone, resolveBy_of_not_done hdone, hconv]
    dsimp only
    rw [ih hbase heval]
  | case3 raw hdone hconv hoperator =>
    rw [dite_eq_ite] at hconv
    rw [Bool.and_eq_true] at hoperator
    obtain ⟨evaluate₁, rfl⟩ := Option.isSome_iff_exists.mp hoperator.2
    obtain ⟨evaluate₂, rfl⟩ := Option.isSome_iff_exists.mp (hsome.symm.trans hoperator.2)
    have hexpr := heval (trim raw) List.mem_cons_self (h.of_isInfix (infix_trim raw))
    rw [resolveBy_of_not_done hdone, resolveBy_of_not_done hdone, hconv]
    dsimp only
    rw [if_pos hoperator.1, if_pos hoperator.1]
    exact Option.some.inj hexpr
  | case4 raw hdone hconv hoperator hreference =>
    rw [dite_eq_ite] at hconv
    rw [resolveBy_of_plain hdone hconv hoperator, resolveBy_of_plain hdone hconv (hsome ▸ hoperator),
      if_pos hreference, if_pos hreference]
    rfl
  | case5 raw hdone hconv hoperator hreference items hliteral ih =>
    rw [dite_eq_ite] at hconv
    rw [resolveBy_of_plain hdone hconv hoperator, resolveBy_of_plain hdone hconv (hsome ▸ hoperator),
      if_neg hreference, if_neg hreference, hliteral]
    refine congrArg (Except.map Value.array)
      (mapM_resolveBy_congr (fun item hitem => ih ⟨item, hitem⟩ ?_) ?_)
    · obtain ⟨-, rfl⟩ := Literal.eq_itemTexts_of_ofText hliteral
      exact ((h.of_isInfix (infix_trim raw)).of_isInfix (infix_trim _)).item hitem
    · rw [← List.foldr_attach]
      exact heval
  | case6 raw hdone hconv hoperator hreference hliteral =>
    rw [dite_eq_ite] at hconv
    rw [resolveBy_of_plain hdone hconv hoperator, resolveBy_of_plain hdone hconv (hsome ▸ hoperator),
      if_neg hreference, if_neg hreference]
    cases hlit : Literal.ofText (trim raw) with
    | error f => rfl
    | ok literal =>
      cases literal with
      | value v => rfl
      | array items => exact absurd hlit (hliteral items)

/-- An operand that is quoted or shared has the same value in both environments. -/
theorem resolveOperand_congr {operand : List Char}
    (h : Expr.Token.IsQuoted operand ∨ Shared env₁ env₂ operand) :
    resolveOperand ⟨tree, path, env₁⟩ operand = resolveOperand ⟨tree, path, env₂⟩ operand := by
  rw [resolveOperand, resolveOperand]
  split
  · rfl
  · cases hliteral : Literal.ofText operand with
    | error f => rfl
    | ok literal =>
      cases literal with
      | value v => rfl
      | array items =>
        rcases h with hquoted | hshared
        · exact absurd hliteral (Literal.ofText_ne_array hquoted items)
        · refine congrArg (Except.map Value.array)
            (mapM_resolveBy_congr (fun item hitem _ => resolveBy_congr rfl ?_ ?_) ?_)
          · obtain ⟨-, rfl⟩ := Literal.eq_itemTexts_of_ofText hliteral
            exact (hshared.of_isInfix (infix_trim operand)).item hitem
          · exact fun _ _ _ => rfl
          · exact fun _ _ _ => rfl

end

/-! ## Expressions in texts -/

/-- Whether groups stay apart from strings in all expressions that resolving a text evaluates. -/
def groupsApart (scope : Scope) (raw : List Char) : Bool :=
  (evaluatedBy (some scope.evaluateExpression) scope raw).all fun expr =>
    Expr.groupsApart (Expr.evaluateFlat scope.resolveOperand)
      (expr.count '(' + Expr.groupsFromStrings) expr

/-- An expression has the same value in both environments, if groups stay apart from strings. -/
theorem evaluateExpression_congr {tree : Tree} {path : List String} {expr : List Char}
    (h : Shared env₁ env₂ expr) (hapart : Expr.groupsApart
      (Expr.evaluateFlat (resolveOperand ⟨tree, path, env₁⟩))
      (expr.count '(' + Expr.groupsFromStrings) expr = true) :
    evaluateExpression ⟨tree, path, env₁⟩ expr = evaluateExpression ⟨tree, path, env₂⟩ expr := by
  rw [evaluateExpression, evaluateExpression]
  exact h.visible.evaluate (fun _ => resolveOperand_congr) hapart

/-- A shared text has the same value in both environments, if groups stay apart from strings. -/
theorem resolve_congr {tree : Tree} {path : List String} {raw : List Char}
    (h : Shared env₁ env₂ raw) (hapart : groupsApart ⟨tree, path, env₁⟩ raw = true) :
    resolve ⟨tree, path, env₁⟩ raw = resolve ⟨tree, path, env₂⟩ raw := by
  rw [groupsApart, List.all_eq_true] at hapart
  rw [resolve, resolve]
  refine resolveBy_congr (by rw [Option.isSome_some, Option.isSome_some]) h
    fun expr hexpr hshared => ?_
  rw [Option.map_some, Option.map_some, evaluateExpression_congr hshared (hapart expr hexpr)]

end Scope

end ConfigLang
