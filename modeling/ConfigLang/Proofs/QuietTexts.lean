import ConfigLang.Proofs.SharedValue
import ConfigLang.Proofs.UngroupedValues

set_option autoImplicit false

/-! # Texts without quotes and operators

An operand is quoted, or quiet: it has neither quotes nor operators. The items of a quiet array are
quiet again, so none of them is an expression. Main statements: a quiet text has the same value
wherever expressions are evaluated (`Scope.resolveBy_of_quiet`), and an expression without groups
brings in none (`Scope.Ungrouped.evaluateFlat`). -/

namespace ConfigLang

open Text

/-! ## Characters of operands -/

namespace Expr.Token

theorem mem_of_mem_gathered {gathering operand : List Char} {c : Char}
    (h : .operand operand ∈ gathered gathering) (hc : c ∈ operand) : c ∈ gathering := by
  rw [eq_trim_of_mem_gathered h] at hc
  exact List.mem_reverse.mp ((infix_trim _).subset hc)

theorem mem_of_mem_scanFrom {s : Scan.Quotes} {gathering text operand : List Char} {c : Char}
    (h : .operand operand ∈ scanFrom s gathering text) (hc : c ∈ operand) :
    c ∈ gathering ∨ c ∈ text := by
  -- behind a token nothing is gathered, and the rest of the text is in the text
  have hrest : ∀ {gathering rest : List Char} {d : Char}, c ∈ ([] : List Char) ∨ c ∈ rest →
      c ∈ gathering ∨ c ∈ d :: rest :=
    fun hmem => Or.inr (List.mem_cons_of_mem _ (hmem.resolve_left List.not_mem_nil))
  -- a character that is gathered next is the first one of the text
  have hnext : ∀ {gathering rest : List Char} {d : Char}, c ∈ d :: gathering ∨ c ∈ rest →
      c ∈ gathering ∨ c ∈ d :: rest := by
    intro gathering rest d hmem
    rw [List.mem_cons] at hmem ⊢
    rwa [← or_assoc, or_comm (a := c ∈ gathering)]
  fun_induction scanFrom s gathering text with
  | case1 => exact Or.inl (mem_of_mem_gathered h hc)
  | case2 s gathering d rest q hs hcloses ih =>
    rcases List.mem_cons.mp h with heq | hmem
    · rw [Token.operand.injEq] at heq
      rw [heq, List.mem_reverse] at hc
      exact hnext (Or.inl hc)
    · exact hrest (ih hmem)
  | case3 s gathering d rest q hs hopen ih => exact hnext (ih h)
  | case4 s gathering d rest hs hd ih =>
    rcases List.mem_append.mp h with hmem | hmem
    · exact Or.inl (mem_of_mem_gathered hmem hc)
    · exact Or.inr (by simpa using ih hmem)
  | case5 s gathering d rest hs hd op hop ih =>
    rcases List.mem_append.mp h with hmem | hmem
    · exact Or.inl (mem_of_mem_gathered hmem hc)
    · exact hrest (ih ((List.mem_cons.mp hmem).resolve_left (by simp)))
  | case6 s gathering d rest hs hd hop hblank ih =>
    rcases List.mem_append.mp h with hmem | hmem
    · exact Or.inl (mem_of_mem_gathered hmem hc)
    · exact hrest (ih hmem)
  | case7 s gathering d rest hs hd hop hblank ih => exact hnext (ih h)

/-- The characters of operands are characters of the text. -/
theorem mem_of_mem_scan {text operand : List Char} {c : Char} (h : .operand operand ∈ scan text)
    (hc : c ∈ operand) : c ∈ text :=
  (mem_of_mem_scanFrom h hc).resolve_left List.not_mem_nil

end Expr.Token

open Expr.Token

/-! ## Quiet texts -/

/-- A text without quotes and operators. -/
def IsQuiet (text : List Char) : Prop :=
  ∀ c ∈ text, isBreak c = false

theorem quoted_or_quiet_of_mem_scan {text operand : List Char} (h : .operand operand ∈ scan text) :
    IsQuoted operand ∨ IsQuiet operand :=
  (shownIn_of_mem_scan h).imp_right And.right

theorem isBreak_of_isBlank {c : Char} (h : isBlank c = true) : isBreak c = false :=
  isBreak_of_class rfl h

/-- A character of an item that is no blank is one of the text; blanks may stand for line ends. -/
theorem mem_of_mem_itemTexts {text item : List Char} {c : Char} (h : item ∈ itemTexts text)
    (hc : c ∈ item) (hblank : isBlank c = false) : c ∈ text := by
  simp only [itemTexts, List.mem_filter, List.mem_map] at h
  obtain ⟨⟨piece, hpiece, rfl⟩, -⟩ := h
  have hjoined := (Scan.infix_of_mem_splitTopLevel hpiece).subset ((infix_trim piece).subset hc)
  obtain ⟨front, back, heq⟩ := List.append_of_mem hjoined
  obtain ⟨front', back', htext, -, -⟩ := joinLines_eq_append_cons hblank heq
  have hcontent : c ∈ bracketContent text :=
    (infix_trim _).subset (htext ▸ List.mem_append_right _ List.mem_cons_self)
  unfold bracketContent at hcontent
  cases hinner : between? '[' ']' text with
  | none => rwa [hinner] at hcontent
  | some inner =>
    rw [hinner] at hcontent
    rw [between?_eq_some hinner]
    exact List.mem_cons_of_mem _ (List.mem_append_left _ hcontent)

theorem open_not_mem_trim {text : List Char} (h : '(' ∉ text) : '(' ∉ trim text :=
  fun hmem => h ((infix_trim text).subset hmem)

theorem open_not_mem_item {text item : List Char} (h : '(' ∉ text) (hitem : item ∈ itemTexts text) :
    '(' ∉ item :=
  fun hmem => h (mem_of_mem_itemTexts hitem hmem rfl)

namespace IsQuiet

variable {text : List Char}

theorem of_isInfix (h : IsQuiet text) {part : List Char} (hpart : part <:+: text) : IsQuiet part :=
  fun c hc => h c (hpart.subset hc)

theorem item (h : IsQuiet text) {part : List Char} (hpart : part ∈ itemTexts text) :
    IsQuiet part := by
  intro c hc
  by_cases hblank : isBlank c = true
  · exact isBreak_of_isBlank hblank
  · exact h c (mem_of_mem_itemTexts hpart hc (Bool.eq_false_iff.mpr hblank))

theorem not_mem_of_isQuote (h : IsQuiet text) {q : Char} (hq : isQuote q = true) : q ∉ text := by
  intro hmem
  have hbreak := h q hmem
  rw [isBreak, hq] at hbreak
  exact absurd hbreak (by simp)

theorem hasOperator_eq (h : IsQuiet text) : hasOperator text = false := by
  apply hasOperator_of_forall
  intro c hc
  have hbreak := h c hc
  rw [isBreak, Bool.or_eq_false_iff] at hbreak
  exact hbreak.2

end IsQuiet

/-! ## Literals -/

theorem mapM_congr {α : Type} {items : List α} {f g : α → Except Fault Value}
    (h : ∀ item ∈ items, f item = g item) : items.mapM f = items.mapM g := by
  induction items with
  | nil => rfl
  | cons item rest ih =>
    rw [List.forall_mem_cons] at h
    rw [List.mapM_cons, List.mapM_cons, h.1, ih h.2]

/-- The values of a list come from its items. -/
theorem exists_of_mapM {α : Type} {items : List α} {f : α → Except Fault Value}
    {values : List Value} (h : items.mapM f = .ok values) {v : Value} (hv : v ∈ values) :
    ∃ item ∈ items, f item = .ok v := by
  induction items generalizing values with
  | nil =>
    rw [List.mapM_nil] at h
    rw [← Except.ok.inj h] at hv
    exact absurd hv List.not_mem_nil
  | cons item rest ih =>
    rw [List.mapM_cons] at h
    obtain ⟨first, hfirst, h⟩ := exists_of_bind h
    obtain ⟨later, hlater, h⟩ := exists_of_bind h
    rw [← Except.ok.inj h] at hv
    rcases List.mem_cons.mp hv with rfl | hmem
    · exact ⟨item, List.mem_cons_self, hfirst⟩
    · obtain ⟨other, hother, hvalue⟩ := ih hlater hmem
      exact ⟨other, List.mem_cons_of_mem _ hother, hvalue⟩

namespace Json

/-- Without quotes there is no string among the tokens. -/
theorem string_not_mem_of_tokens? {text : List Char} {tokens : List Token} (hquote : '"' ∉ text)
    (h : tokens? text = some tokens) (s : List Char) : .string s ∉ tokens := by
  fun_induction tokens? text generalizing tokens with
  | case1 =>
    obtain rfl := Option.some.inj h
    exact List.not_mem_nil
  | case2 c rest hspace ih => exact ih (fun hmem => hquote (List.mem_cons_of_mem _ hmem)) h
  | case3 c rest hspace token hpunctuation ih =>
    obtain ⟨later, hlater, rfl⟩ := Option.map_eq_some_iff.mp h
    rw [List.mem_cons, not_or]
    refine ⟨?_, ih (fun hmem => hquote (List.mem_cons_of_mem _ hmem)) hlater⟩
    rintro rfl
    unfold punctuation? at hpunctuation
    split at hpunctuation <;> exact absurd hpunctuation (by simp)
  | case4 => exact absurd List.mem_cons_self hquote
  | case5 => exact absurd List.mem_cons_self hquote
  | case6 => exact absurd h (by simp)
  | case7 c rest hspace hpunctuation hc hscalar v hv ih =>
    obtain ⟨later, hlater, rfl⟩ := Option.map_eq_some_iff.mp h
    have hrest : '"' ∉ rest.dropWhile isScalarChar :=
      fun hmem => hquote (List.mem_cons_of_mem _ ((List.dropWhile_suffix _).subset hmem))
    rw [List.mem_cons, not_or]
    exact ⟨by simp, ih hrest hlater⟩
  | case8 => exact absurd h (by simp)

/-- Without quotes an object has no entries. -/
theorem eq_object_nil_of_read? {inner : List Char} {v : Value} (hquote : '"' ∉ inner)
    (h : read? ('\x7b' :: inner) = some v) : v = .object [] := by
  obtain ⟨tokens, htokens, hread⟩ := Option.bind_eq_some_iff.mp h
  have hopening : tokens? ('\x7b' :: inner) = (tokens? inner).map (.openBrace :: ·) := by
    rw [tokens?]
    rfl
  rw [hopening] at htokens
  obtain ⟨rest, hrest, rfl⟩ := Option.map_eq_some_iff.mp htokens
  have hnone := string_not_mem_of_tokens? hquote hrest
  cases rest with
  | nil => exact absurd hread (by simp [readValue?])
  | cons token rest =>
    cases token with
    | closeBrace =>
      rw [readValue?, if_pos (by decide)] at hread
      cases rest with
      | nil => exact (Option.some.inj hread).symm
      | cons token rest => cases token <;> exact absurd hread (by simp [giveValue?])
    | string s => exact absurd List.mem_cons_self (hnone s)
    | _ => exact absurd hread (by simp [readValue?])

end Json

namespace Literal

/-- Finishing a literal depends on the values of its items only. -/
theorem finish_congr {text : List Char} {f g : List Char → Except Fault Value}
    (h : ∀ items, ofText text = .ok (.array items) → ∀ item ∈ items, f item = g item) :
    (ofText text >>= (·.finish f)) = ofText text >>= (·.finish g) := by
  cases hliteral : ofText text with
  | error fault => rfl
  | ok literal =>
    cases literal with
    | value v => rfl
    | array items => exact congrArg (Except.map Value.array) (mapM_congr (h items hliteral))

theorem ungrouped_of_wordValue? {text : List Char} {v : Value} (h : wordValue? text = some v) :
    v.Ungrouped := by
  apply Value.ungrouped_of_texts
  unfold wordValue? at h
  dsimp only at h
  split_ifs at h <;> (rw [← Option.some.inj h]; rfl)

theorem ungrouped_of_numberValue? {text : List Char} {v : Value} (h : numberValue? text = some v) :
    v.Ungrouped := by
  apply Value.ungrouped_of_texts
  unfold numberValue? at h
  split at h
  · obtain ⟨x, -, rfl⟩ := Option.map_eq_some_iff.mp h
    rfl
  · split at h
    · rw [← Option.some.inj h]
      rfl
    · split at h
      · obtain ⟨x, -, rfl⟩ := Option.map_eq_some_iff.mp h
        rfl
      · exact absurd h (by simp)

/-- A literal that is quoted or without quotes brings in no opening parenthesis. -/
theorem ungrouped_of_ofText {text : List Char} {v : Value} (hopen : '(' ∉ text)
    (hquote : IsQuoted text ∨ '"' ∉ text) (h : ofText text = .ok (.value v)) : v.Ungrouped := by
  have htrim := open_not_mem_trim hopen
  unfold ofText ofTrimmed at h
  split at h
  next w hword =>
    obtain rfl := Literal.value.inj (Except.ok.inj h)
    exact ungrouped_of_wordValue? hword
  next inner hinner =>
    obtain rfl := Literal.value.inj (Except.ok.inj h)
    refine .of_text (open_not_mem_unescape fun hmem => htrim ?_)
    unfold unquoted? at hinner
    split at hinner
    next inner' hdouble =>
      obtain rfl := Option.some.inj hinner
      rw [between?_eq_some hdouble]
      exact List.mem_cons_of_mem _ (List.mem_append_left _ hmem)
    next =>
      rw [between?_eq_some hinner]
      exact List.mem_cons_of_mem _ (List.mem_append_left _ hmem)
  next =>
    split at h
    · exact absurd (Except.ok.inj h) (by simp)
    · split at h
      next hbraced =>
        obtain ⟨inner, hinner⟩ := Option.isSome_iff_exists.mp hbraced
        have htext := between?_eq_some hinner
        have hnone : '"' ∉ trim text := by
          rcases hquote with ⟨q, rest, rfl, hq⟩ | hnone
          · obtain ⟨rest, hrest⟩ := trim_cons_of_not_blank (isBlank_of_isQuote hq) rest
            rw [hrest] at htext
            rw [(List.cons.inj htext).1] at hq
            exact absurd hq (by decide)
          · exact fun hmem => hnone ((infix_trim text).subset hmem)
        split at h
        next w hread =>
          obtain rfl := Literal.value.inj (Except.ok.inj h)
          rw [htext] at hread hnone
          rw [Json.eq_object_nil_of_read? (fun hmem => hnone (List.mem_cons_of_mem _ hmem)) hread]
          exact Value.ungrouped_of_texts rfl
        next => exact absurd h (by simp)
      next =>
        obtain rfl := Literal.value.inj (Except.ok.inj h)
        cases hnumber : numberValue? (trim text) with
        | none => exact .of_text htrim
        | some w => exact ungrouped_of_numberValue? hnumber

end Literal

/-! ## Values of quiet texts -/

namespace Scope

/-- A quiet text is no expression, and neither are the items of an array in it. -/
theorem resolveBy_of_quiet (expression? : Option (List Char → Except Fault Value)) (scope : Scope)
    {raw : List Char} (h : IsQuiet raw) :
    resolveBy expression? scope raw = resolveBy none scope raw := by
  induction hlength : raw.length using Nat.strong_induction_on generalizing raw with
  | _ length ih =>
    subst hlength
    have htrim := h.of_isInfix (infix_trim raw)
    have hlength := length_trim_le raw
    have hnone : (if !isSimpleLiteral (trim raw) && hasOperator (trim raw) then expression?
        else none) = none := by
      rw [htrim.hasOperator_eq, Bool.and_false]
      rfl
    have hitems : (Literal.ofText (trim raw) >>= (·.finish (resolveBy expression? scope)))
        = Literal.ofText (trim raw) >>= (·.finish (resolveBy none scope)) := by
      refine Literal.finish_congr fun items hliteral item hitem => ?_
      have hlt := Literal.length_lt_of_ofText hliteral hitem
      obtain ⟨-, rfl⟩ := Literal.eq_itemTexts_of_ofText hliteral
      exact ih item.length (by omega) ((htrim.of_isInfix (infix_trim _)).item hitem) rfl
    rw [resolveBy_eq expression?, resolveBy_eq none, hnone, ite_self, hitems]
    split
    · rfl
    · split
      · rfl
      · split
        next base target hconv =>
          split at hconv
          · exact absurd hconv (by simp)
          · have hlt := length_conversion? hconv
            rw [ih base.length (by omega) (htrim.of_isInfix (infix_of_conversion? hconv)) rfl]
        next => rfl

end Scope

namespace Scope.Ungrouped

variable {scope : Scope} {v : Value}

theorem ungrouped_of_mapM {α : Type} {items : List α} {f : α → Except Fault Value}
    (h : ∀ item ∈ items, ∀ w, f item = .ok w → w.Ungrouped)
    (hv : (items.mapM f).bind (fun values => .ok (.array values)) = .ok v) : v.Ungrouped := by
  obtain ⟨values, hvalues, hdone⟩ := exists_of_bind hv
  rw [← Except.ok.inj hdone, Value.ungrouped_array_iff]
  intro w hw
  obtain ⟨item, hitem, hvalue⟩ := exists_of_mapM hvalues hw
  exact h item hitem w hvalue

/-- The value of a quiet text brings in no group. -/
theorem resolveBy (h : scope.Ungrouped) {raw : List Char} (hquiet : IsQuiet raw)
    (hopen : '(' ∉ raw) (hv : scope.resolveBy none raw = .ok v) : v.Ungrouped := by
  revert v
  fun_induction Scope.resolveBy none scope raw with
  | case1 =>
    intro v hv
    exact Except.ok.inj hv ▸ Value.ungrouped_of_texts rfl
  | case2 raw hempty w hexpand =>
    intro v hv
    exact Except.ok.inj hv ▸ h.expand? hexpand
  | case3 raw hempty hexpand simple base target hconv ih =>
    intro v hv
    obtain ⟨w, hw, hconvert⟩ := exists_of_bind hv
    split at hconv
    · exact absurd hconv (by simp)
    · have hbase := infix_of_conversion? hconv
      have hbaseOpen : '(' ∉ base := fun hmem => open_not_mem_trim hopen (hbase.subset hmem)
      have hbaseQuiet := (hquiet.of_isInfix (infix_trim raw)).of_isInfix hbase
      exact (ih hbaseQuiet hbaseOpen hw).convert hconvert
  | case4 raw hempty hexpand simple hconv evaluate hevaluate =>
    intro v hv
    exact absurd hevaluate (by simp)
  | case5 raw hempty hexpand simple hconv hnone hreference =>
    intro v hv
    exact h.resolveReference hv
  | case6 =>
    intro v hv
    exact absurd hv (by simp)
  | case7 raw hempty hexpand simple hconv hnone hreference w hliteral =>
    intro v hv
    have hquote := (hquiet.of_isInfix (infix_trim raw)).not_mem_of_isQuote (q := '"') rfl
    rw [← Except.ok.inj hv]
    exact Literal.ungrouped_of_ofText (open_not_mem_trim hopen) (Or.inr hquote) hliteral
  | case8 raw hempty hexpand simple hconv hnone hreference items hliteral ih =>
    intro v hv
    obtain ⟨-, rfl⟩ := Literal.eq_itemTexts_of_ofText hliteral
    refine ungrouped_of_mapM (fun item _ w hw => ?_) hv
    have hitemQuiet := (hquiet.of_isInfix ((infix_trim _).trans (infix_trim _))).item item.2
    have hitemOpen := open_not_mem_item (open_not_mem_trim (open_not_mem_trim hopen)) item.2
    exact ih item.1 item.2 hitemQuiet hitemOpen hw

/-- The value of an operand brings in no group. -/
theorem resolveOperand (h : scope.Ungrouped) {expr operand : List Char} (hopen : '(' ∉ expr)
    (hmem : .operand operand ∈ scan expr) (hv : scope.resolveOperand operand = .ok v) :
    v.Ungrouped := by
  have hoperand : '(' ∉ operand := fun hc => hopen (mem_of_mem_scan hmem hc)
  have hshape := quoted_or_quiet_of_mem_scan hmem
  unfold Scope.resolveOperand at hv
  split at hv
  · exact h.resolveReference hv
  · obtain ⟨literal, hliteral, hfinish⟩ := exists_of_bind hv
    cases literal with
    | value w =>
      rw [← Except.ok.inj hfinish]
      exact Literal.ungrouped_of_ofText hoperand
        (hshape.imp_right fun hquiet => hquiet.not_mem_of_isQuote rfl) hliteral
    | array items =>
      rcases hshape with hquoted | hquiet
      · exact absurd hliteral (Literal.ofText_ne_array hquoted items)
      · obtain ⟨-, rfl⟩ := Literal.eq_itemTexts_of_ofText hliteral
        refine ungrouped_of_mapM (fun item hitem w hw => ?_) hfinish
        have hitemOpen := open_not_mem_item (open_not_mem_trim hoperand) hitem
        exact h.resolveBy ((hquiet.of_isInfix (infix_trim _)).item hitem) hitemOpen hw

/-- The value of an expression without groups brings in none. -/
theorem evaluateFlat (h : scope.Ungrouped) {expr : List Char} (hopen : '(' ∉ expr)
    (hv : Expr.evaluateFlat scope.resolveOperand expr = .ok v) : v.Ungrouped :=
  .of_evaluateFlat (fun _ _ hmem hvalue => h.resolveOperand hopen hmem hvalue) hv

end Scope.Ungrouped

end ConfigLang
