import ConfigLang.Proofs.AccessorTexts
import ConfigLang.Proofs.NumberTexts
import ConfigLang.Proofs.Precedence
import ConfigLang.Proofs.TopLevelPieces

set_option autoImplicit false

/-! # Texts between outermost brackets

A text is an array as soon as it begins with an opening bracket and ends with a closing one, whether
or not the one closes the other. Two arrays with a plus sign between them are such a text: the last
item of the first and the first item of the second become one item with two brackets and the sign
in it (`itemPieces_meeting`). Main statement: what stands between the outermost brackets is an array
exactly if all its items have values, so two arrays whose items meet in two words always add up to
an array (`Scope.resolve_outermost`). -/

namespace ConfigLang

open Text
open Document (isNameChar)
open ConfigLang.Expr

/-! ## Groups -/

namespace Scan

/-- A text in brackets of which the first is closed by the last, brackets between quotes aside. -/
structure IsGroup (text : List Char) : Prop where
  closed : (nesting text).brackets = 0
  inside : ∀ front, front <+: text → front ≠ [] → front ≠ text → 0 < (nesting front).brackets

namespace IsGroup

variable {text rest inner : List Char}

instance : Decidable (IsGroup text) :=
  decidable_of_iff ((nesting text).brackets = 0 ∧ ∀ front ∈ text.inits,
    front ≠ [] → front ≠ text → 0 < (nesting front).brackets)
    ⟨fun ⟨hclosed, hinside⟩ => ⟨hclosed, fun front h => hinside front ((List.mem_inits ..).mpr h)⟩,
      fun ⟨hclosed, hinside⟩ => ⟨hclosed, fun front h => hinside front ((List.mem_inits ..).mp h)⟩⟩

/-- Nothing stands behind a group in a group. -/
theorem not_append (h : IsGroup text) (htext : text ≠ []) (hrest : rest ≠ []) :
    ¬ IsGroup (text ++ rest) := by
  intro hmore
  have hopen := hmore.inside text (List.prefix_append text rest) htext (by simpa using hrest)
  rw [h.closed] at hopen
  exact absurd hopen (Int.lt_irrefl 0)

/-- A group with closed braces closes between its brackets what is opened there. -/
theorem isClosed_inner (h : IsGroup (inBrackets inner))
    (hbraces : (nesting (inBrackets inner)).braces = 0) : (nesting inner).IsClosed := by
  have hbehind : nesting (inBrackets inner) = (nesting ('[' :: inner)).step ']' :=
    nesting_append ('[' :: inner) [']']
  have hclosed := h.closed
  have hopen : 0 < (nesting ('[' :: inner)).brackets :=
    h.inside _ (List.prefix_append _ [']']) (by simp) (by simp [inBrackets])
  rw [hbehind] at hclosed hbraces
  -- the last bracket stands outside quotes, as it closes the first one
  have hspan : (nesting ('[' :: inner)).quotes.span? = none := by
    cases hs : (nesting ('[' :: inner)).quotes.span? with
    | none => rfl
    | some q =>
      rw [Nesting.step, Quotes.outside_of_span hs] at hclosed
      exact absurd hclosed (Int.ne_of_gt hopen)
  obtain ⟨-, hless, hsame⟩ := Nesting.step_of_not_quote (c := ']') hspan rfl
  have hfirst : Nesting.Shifted 1 0 {} (Nesting.step {} '[') := ⟨rfl, absurd rfl, rfl, rfl⟩
  have hinner : Nesting.Shifted 1 0 (nesting inner) (nesting ('[' :: inner)) := hfirst.foldl inner
  have hbrackets := hinner.brackets_eq
  have hcount := hinner.braces_eq
  have hbracket : Nesting.bracketChange ']' = -1 := rfl
  have hbrace : Nesting.braceChange ']' = 0 := rfl
  exact ⟨hinner.span_eq ▸ hspan, by omega, by omega⟩

end IsGroup

end Scan

/-! ## Pieces between brackets -/

/-- What stands between the commas of an array. -/
def itemPieces (inner : List Char) : List (List Char) :=
  Scan.splitTopLevel ',' (joinLines inner)

/-- Pieces as items: less the blanks around them, and less the empty ones. -/
def keptPieces (pieces : List (List Char)) : List (List Char) :=
  (pieces.map trim).filter (!·.isEmpty)

theorem keptPieces_append (pieces rest : List (List Char)) :
    keptPieces (pieces ++ rest) = keptPieces pieces ++ keptPieces rest := by
  rw [keptPieces, List.map_append, List.filter_append]
  rfl

theorem keptPieces_cons {piece : List Char} (h : trim piece ≠ []) (rest : List (List Char)) :
    keptPieces (piece :: rest) = trim piece :: keptPieces rest := by
  rw [keptPieces, List.map_cons, List.filter_cons_of_pos (by simpa using h)]
  rfl

theorem itemTexts_inBrackets (inner : List Char) :
    itemTexts (inBrackets inner) = keptPieces (itemPieces inner) := by
  rw [inBrackets, Scope.itemTexts_bracketed, Scan.map_trim_splitTopLevel_trim]
  rfl

section

variable {a b last first : List Char} {front back : List (List Char)}

/-- Two texts in brackets with a plus sign between them. -/
def sumText (a b : List Char) : List Char :=
  inBrackets a ++ " + ".toList ++ inBrackets b

/-- Two texts with what stands between them in the sum of their brackets. -/
def meeting (a b : List Char) : List Char :=
  a ++ ("] + [".toList ++ b)

theorem sumText_eq (a b : List Char) : sumText a b = inBrackets (meeting a b) := by
  simp [sumText, inBrackets, meeting]

theorem joinLines_meeting (a b : List Char) :
    joinLines (meeting a b) = meeting (joinLines a) (joinLines b) := by
  have hclosing := joinLinesFrom_append_cons (c := ']') rfl [] a (" + ".toList ++ '[' :: b)
  have hopening := joinLinesFrom_append_cons (c := '[') rfl [] " + ".toList b
  have hgap : joinLinesFrom [] " + ".toList = " + ".toList := by decide
  rw [hgap] at hopening
  exact hclosing.trans (congrArg (joinLines a ++ ']' :: ·) hopening)

/-- The last piece of the first text and the first of the second one become one. -/
theorem itemPieces_meeting (hclosed : (Scan.nesting a).IsClosed)
    (ha : itemPieces a = front ++ [last]) (hb : itemPieces b = first :: back) :
    itemPieces (meeting a b) = front ++ meeting last first :: back := by
  have hgap : Scan.splitTopLevel ',' "] + [".toList = [] ++ ["] + [".toList] :=
    Scan.splitTopLevel_of_none (by decide)
  have hopening : Scan.splitTopLevel ',' ("] + [".toList ++ joinLines b)
      = ("] + [".toList ++ first) :: back :=
    Scan.splitTopLevel_append_of_closed ⟨rfl, rfl, rfl⟩ hgap hb
  rw [itemPieces, joinLines_meeting]
  exact Scan.splitTopLevel_append_of_closed ((Scan.shifted_joinLines a).isClosed_iff.mpr hclosed)
    ha hopening

end

/-- Without quotes an operator anywhere makes a text an expression. -/
theorem hasOperator_of_mem {text : List Char} (hquote : ∀ c ∈ text, isQuote c = false) {c : Char}
    (hc : isOperator c = true) (hmem : c ∈ text) : hasOperator text = true := by
  obtain ⟨before, after, rfl⟩ := List.append_of_mem hmem
  have hspan : (({} : Scan.Quotes).scan before).span? = none :=
    Scan.Quotes.span_scan_of_not_quote rfl fun d hd => hquote d (List.mem_append_left _ hd)
  have houtside := Scan.Quotes.outside_of_not_quote hspan (hquote c hmem)
  rw [hasOperator, ← Option.ne_none_iff_isSome, Scan.cutUnquoted?]
  intro hnone
  have hhit := Scan.hit_of_cutWhen?_eq_none hnone
  rw [hc, Bool.and_true] at hhit
  exact Bool.false_ne_true (hhit.symm.trans houtside)

/-! ## Torn texts -/

/-- The characters of names, and brackets. -/
def isNameOrBracket (c : Char) : Bool :=
  isNameChar c || c == '[' || c == ']'

/-- The characters of two names with the brackets and the sign between them. -/
def isTornChar (c : Char) : Bool :=
  isNameOrBracket c || c == '+' || c == ' '

/-- A text of such characters with a bracket in it. -/
structure IsTorn (text : List Char) : Prop where
  chars : ∀ c ∈ text, isTornChar c = true
  bracket_mem : ∃ c ∈ text, c = '[' ∨ c = ']'
  trim_eq : trim text = text
  isBracketed_eq : isBracketed text = false

namespace IsTorn

variable {text : List Char}

theorem not_mem (h : IsTorn text) {c : Char} (hc : isTornChar c = false) : c ∉ text :=
  fun hmem => Bool.false_ne_true (hc.symm.trans (h.chars c hmem))

theorem between?_eq (h : IsTorn text) {c : Char} (hc : isTornChar c = false) (last : Char) :
    between? c last text = none := by
  refine between?_of_head_ne fun d hd => ?_
  rintro rfl
  exact h.not_mem hc (List.mem_of_mem_head? hd)

theorem isBare (h : IsTorn text) : IsBare text where
  trim_eq := h.trim_eq
  unquoted?_eq := by rw [unquoted?, h.between?_eq (by decide), h.between?_eq (by decide)]
  isBracketed_eq := h.isBracketed_eq
  isBraced_eq := by
    rw [isBraced, h.between?_eq (by decide)]
    rfl
  wordValue?_eq := by
    obtain ⟨c, hc, rfl | rfl⟩ := h.bracket_mem
    · exact wordValue?_of_mem (by decide) hc
    · exact wordValue?_of_mem (by decide) hc

theorem readFloat?_eq (h : IsTorn text) : Number.readFloat? text = none := by
  obtain ⟨c, hc, rfl | rfl⟩ := h.bracket_mem
  · exact Number.readFloat?_of_mem (by decide) hc (by decide) (by decide) (by decide) hc
  · exact Number.readFloat?_of_mem (by decide) hc (by decide) (by decide) (by decide) hc

theorem isQuote_of_mem (h : IsTorn text) : ∀ c ∈ text, isQuote c = false := by
  intro c hc
  simp only [isQuote, Bool.or_eq_false_iff, beq_eq_false_iff_ne]
  exact ⟨fun heq => h.not_mem (c := '"') (by decide) (heq ▸ hc),
    fun heq => h.not_mem (c := '\'') (by decide) (heq ▸ hc)⟩

/-- A bracket is no part of a name, and there is no point. -/
theorem isReference_eq (h : IsTorn text) : isReference text = false := by
  have hpoint : text.contains '.' = false := by
    rw [← Bool.not_eq_true, List.contains_iff_mem]
    exact h.not_mem (by decide)
  have hid : isIdentifier text = false := by
    rw [← Bool.not_eq_true]
    intro hid
    obtain ⟨c, hc, rfl | rfl⟩ := h.bracket_mem
    · exact absurd (isNameChar_of_isIdentifier hid hc) (by decide)
    · exact absurd (isNameChar_of_isIdentifier hid hc) (by decide)
  rw [isReference, hpoint, hid, Bool.or_false, Bool.and_false]

/-- As an operand such a text stands for itself. -/
theorem resolveOperand_eq (h : IsTorn text) (scope : Scope) :
    scope.resolveOperand text = .ok (.string (String.ofList text)) := by
  rw [Scope.resolveOperand, h.isReference_eq, h.isBare.ofText_of_readFloat? h.readFloat?_eq]
  rfl

/-- A whole value of this kind is an expression if an operator stands in it. -/
theorem resolve_eq (h : IsTorn text) (hplus : '+' ∈ text) (scope : Scope) :
    scope.resolve text = Expr.evaluateFlat scope.resolveOperand text := by
  have hne : text.isEmpty = false :=
    List.isEmpty_eq_false_iff.mpr (List.ne_nil_of_mem hplus)
  have hexpand : scope.env.expand? text = none :=
    scope.env.expand?_of_head_ne fun c hc => by
      rintro rfl
      exact h.not_mem (by decide) (List.mem_of_mem_head? hc)
  have hconversion : Scope.conversion? text = none := by
    rw [Scope.conversion?, cutLast?_of_not_mem (h.not_mem (by decide))]
    rfl
  have hsimple := h.isBare.isSimpleLiteral_of_readFloat? h.readFloat?_eq
  have hoperator : hasOperator text = true := hasOperator_of_mem h.isQuote_of_mem rfl hplus
  have hgroup : (Scan.cutUnquoted? (· == ')') text).isSome = false := by
    rw [Scan.cutUnquoted?, Scan.cutWhen?_eq_none_of_forall fun c hc => ?_]
    · rfl
    · rw [beq_eq_false_iff_ne]
      rintro rfl
      exact h.not_mem (by decide) hc
  have hopen : '(' ∉ text := h.not_mem (by decide)
  have hflat := scope.evaluateExpression_of_no_group hopen
  rw [hgroup, if_neg Bool.false_ne_true] at hflat
  rw [Scope.resolve, Scope.resolveBy_eq, h.trim_eq, hne, hexpand, hsimple, hconversion, hoperator]
  exact hflat

end IsTorn

/-! ## Two items that meet -/

/-- A text of one or more characters of names. -/
structure IsWord (text : List Char) : Prop where
  nonempty : text ≠ []
  chars : ∀ c ∈ text, isNameChar c = true

instance {text : List Char} : Decidable (IsWord text) :=
  decidable_of_iff (text ≠ [] ∧ text.all isNameChar = true)
    ⟨fun ⟨hne, hall⟩ => ⟨hne, List.all_eq_true.mp hall⟩,
      fun ⟨hne, hchars⟩ => ⟨hne, List.all_eq_true.mpr hchars⟩⟩

theorem IsWord.trim_eq {text : List Char} (h : IsWord text) : trim text = text :=
  trim_of_no_blank fun c hc => Document.isBlank_of_isNameChar (h.chars c hc)

section

variable {x y : List Char}

theorem isNameOrBracket_of_isNameChar {c : Char} (h : isNameChar c = true) :
    isNameOrBracket c = true := by
  simp [isNameOrBracket, h]

theorem isBlank_of_isNameOrBracket {c : Char} (h : isNameOrBracket c = true) :
    isBlank c = false := by
  simp only [isNameOrBracket, Bool.or_eq_true, beq_iff_eq] at h
  rcases h with (hname | rfl) | rfl
  · exact Document.isBlank_of_isNameChar hname
  · rfl
  · rfl

/-- A name with brackets at its ends is one operand. -/
theorem scan_of_isNameOrBracket {text : List Char} (hne : text ≠ [])
    (h : ∀ c ∈ text, isNameOrBracket c = true) : Token.scan text = [.operand text] :=
  Token.scan_of_no_break hne (fun c hc => isBlank_of_isNameOrBracket (h c hc))
    fun c hc => Token.isBreak_of_class (p := isNameOrBracket) (by decide) (h c hc)

theorem isNameOrBracket_of_mem_closing (hx : IsWord x) :
    ∀ c ∈ x ++ [']'], isNameOrBracket c = true :=
  List.forall_mem_append.mpr ⟨fun c hc => isNameOrBracket_of_isNameChar (hx.chars c hc),
    List.forall_mem_singleton.mpr rfl⟩

theorem isNameOrBracket_of_mem_opening (hy : IsWord y) :
    ∀ c ∈ '[' :: y, isNameOrBracket c = true :=
  List.forall_mem_cons.mpr ⟨rfl, fun c hc => isNameOrBracket_of_isNameChar (hy.chars c hc)⟩

theorem isTornChar_of_isNameOrBracket {c : Char} (h : isNameOrBracket c = true) :
    isTornChar c = true := by
  simp [isTornChar, h]

theorem isTorn_closing (hx : IsWord x) : IsTorn (x ++ [']']) where
  chars c hc := isTornChar_of_isNameOrBracket (isNameOrBracket_of_mem_closing hx c hc)
  bracket_mem := ⟨']', by simp, Or.inr rfl⟩
  trim_eq := trim_of_no_blank fun c hc =>
    isBlank_of_isNameOrBracket (isNameOrBracket_of_mem_closing hx c hc)
  isBracketed_eq := by
    have hopen : '[' ∉ x ++ [']'] := by
      simpa using fun hmem => absurd (hx.chars '[' hmem) (by decide)
    rw [isBracketed, between?_of_head_ne fun c hc => ?_]
    · rfl
    · rintro rfl
      exact hopen (List.mem_of_mem_head? hc)

theorem isTorn_opening (hy : IsWord y) : IsTorn ('[' :: y) where
  chars c hc := isTornChar_of_isNameOrBracket (isNameOrBracket_of_mem_opening hy c hc)
  bracket_mem := ⟨'[', List.mem_cons_self, Or.inl rfl⟩
  trim_eq := trim_of_no_blank fun c hc =>
    isBlank_of_isNameOrBracket (isNameOrBracket_of_mem_opening hy c hc)
  isBracketed_eq := by
    have hclose : ']' ∉ '[' :: y := by
      simpa using fun hmem => absurd (hy.chars ']' hmem) (by decide)
    rw [isBracketed, between?_of_getLast?_ne fun c hc => ?_]
    · rfl
    · rintro rfl
      exact hclose (List.mem_of_mem_getLast? hc)

theorem isTorn_meeting (hx : IsWord x) (hy : IsWord y) :
    IsTorn (meeting x y) := by
  have hhead : ∀ c ∈ (meeting x y).head?, isNameOrBracket c = true ∧ c ≠ '[' := by
    intro c hc
    rw [meeting, List.head?_append_of_ne_nil _ hx.nonempty] at hc
    have hname := hx.chars c (List.mem_of_mem_head? hc)
    exact ⟨isNameOrBracket_of_isNameChar hname, ne_of_class hname rfl⟩
  have hlast : ∀ c ∈ (meeting x y).getLast?, isNameOrBracket c = true := by
    intro c hc
    have hsplit : meeting x y = (x ++ "] + ".toList) ++ '[' :: y := by simp [meeting]
    rw [hsplit, List.getLast?_append_of_ne_nil _ (List.cons_ne_nil _ _)] at hc
    exact isNameOrBracket_of_mem_opening hy c (List.mem_of_mem_getLast? hc)
  refine ⟨List.forall_mem_append.mpr ⟨fun c hc => ?_, List.forall_mem_append.mpr
    ⟨List.all_eq_true.mp (by decide), fun c hc => ?_⟩⟩, ⟨'[', by simp [meeting], Or.inl rfl⟩,
    trim_eq_self (fun c hc => isBlank_of_isNameOrBracket (hhead c hc).1)
      fun c hc => isBlank_of_isNameOrBracket (hlast c hc), ?_⟩
  · exact isTornChar_of_isNameOrBracket (isNameOrBracket_of_isNameChar (hx.chars c hc))
  · exact isTornChar_of_isNameOrBracket (isNameOrBracket_of_isNameChar (hy.chars c hc))
  · rw [isBracketed, between?_of_head_ne fun c hc => (hhead c hc).2]
    rfl

/-- The brackets go to the items, and the sign joins them as strings. -/
theorem resolve_meeting (scope : Scope) (hx : IsWord x)
    (hy : IsWord y) :
    scope.resolve (meeting x y) = .ok (.string (String.ofList (x ++ "][".toList ++ y))) := by
  have hclosing := isTorn_closing hx
  have hopening := isTorn_opening hy
  have htokens : Token.scan (meeting x y)
      = Token.signed 0 (x ++ [']']) ++ .operator .add :: Token.signed 0 ('[' :: y) := by
    have hsplit : meeting x y = (x ++ [']']) ++ ' ' :: '+' :: ' ' :: '[' :: y := by simp [meeting]
    have hspan : (({} : Scan.Quotes).scan (x ++ [']'])).span? = none :=
      Scan.Quotes.span_scan_of_not_quote rfl hclosing.isQuote_of_mem
    have hblank : ∀ c ∈ (' ' :: '+' :: ' ' :: '[' :: y).head?, Token.isDelimiter c = true :=
      fun c hc => Option.some.inj hc ▸ rfl
    rw [hsplit, Token.scan_append hspan hblank, Token.scan_blank rfl, Token.scan_operator rfl,
      Token.scan_blank rfl, scan_of_isNameOrBracket (by simp) (isNameOrBracket_of_mem_closing hx),
      scan_of_isNameOrBracket (List.cons_ne_nil _ _) (isNameOrBracket_of_mem_opening hy)]
    rfl
  have hvalue : ∀ {text : List Char}, IsTorn text →
      signedValue scope.resolveOperand 0 text = .ok (.string (String.ofList text)) := by
    intro text htorn
    rw [signedValue, htorn.resolveOperand_eq]
    rfl
  have happly : apply .add (.string (String.ofList (x ++ [']'])))
        (.string (String.ofList ('[' :: y)))
      = .ok (.string (String.ofList (x ++ "][".toList ++ y))) := by
    simp [apply, isString, Value.text]
  have hsum : Evaluates scope.resolveOperand .sum (Token.scan (meeting x y))
      (.string (String.ofList (x ++ "][".toList ++ y))) := by
    rw [htokens]
    exact .plus rfl (.term (.factor (.operand (hvalue hclosing))))
      (.factor (.operand (hvalue hopening))) happly
  rw [(isTorn_meeting hx hy).resolve_eq (by simp [meeting])]
  exact Chain.ReadsSum.evaluateFlat_eq (hsum.reads _)

end

/-! ## Values of lists of items -/

section

variable {α β : Type} {f : α → Except Fault β}

theorem exists_mapM_error_iff {items : List α} :
    (∃ e, items.mapM f = .error e) ↔ ∃ item ∈ items, ∃ e, f item = .error e := by
  induction items with
  | nil => exact iff_of_false (fun ⟨_, h⟩ => nomatch h) (by simp)
  | cons item rest ih =>
    rw [List.mapM_cons, List.exists_mem_cons_iff, ← ih]
    cases f item with
    | error e => exact iff_of_true ⟨e, rfl⟩ (Or.inl ⟨e, rfl⟩)
    | ok v =>
      cases rest.mapM f with
      | error e => exact iff_of_true ⟨e, rfl⟩ (Or.inr ⟨e, rfl⟩)
      | ok vs => exact iff_of_false (fun ⟨_, h⟩ => nomatch h) (by simp)

end

/-! ## Texts in brackets -/

namespace Scope

variable {scope : Scope} {inner a b : List Char}

theorem resolve_inBrackets (scope : Scope) (inner : List Char) :
    scope.resolve (inBrackets inner)
      = ((itemTexts (inBrackets inner)).mapM scope.resolve).map Value.array :=
  resolveBy_bracketed (isSolid_bracketed inner).trim_eq

theorem resolve_inBrackets_eq_ok_iff {values : List Value} :
    scope.resolve (inBrackets inner) = .ok (.array values)
      ↔ List.Forall₂ (fun item v => scope.resolve item = .ok v) (itemTexts (inBrackets inner))
        values := by
  rw [resolve_inBrackets, ← mapM_eq_ok_iff]
  cases (itemTexts (inBrackets inner)).mapM scope.resolve with
  | error f => exact iff_of_false (fun h => nomatch h) fun h => nomatch h
  | ok vs => simp [Except.map]

/-- A text in brackets has no value exactly if one of its items has none. -/
theorem exists_error_iff :
    (∃ f, scope.resolve (inBrackets inner) = .error f)
      ↔ ∃ item ∈ itemTexts (inBrackets inner), ∃ f, scope.resolve item = .error f := by
  rw [← exists_mapM_error_iff, resolve_inBrackets]
  cases (itemTexts (inBrackets inner)).mapM scope.resolve with
  | error f => exact iff_of_true ⟨f, rfl⟩ ⟨f, rfl⟩
  | ok vs => exact iff_of_false (fun ⟨_, h⟩ => nomatch h) fun ⟨_, h⟩ => nomatch h

theorem exists_array_iff :
    (∃ values, scope.resolve (inBrackets inner) = .ok (.array values))
      ↔ ¬ ∃ f, scope.resolve (inBrackets inner) = .error f := by
  rw [resolve_inBrackets]
  cases (itemTexts (inBrackets inner)).mapM scope.resolve with
  | error f => exact iff_of_false (fun ⟨_, h⟩ => nomatch h) fun h => h ⟨f, rfl⟩
  | ok vs => exact iff_of_true ⟨vs, rfl⟩ fun ⟨_, h⟩ => nomatch h

theorem itemTexts_sumText {last first : List Char} {front back : List (List Char)}
    (hclosed : (Scan.nesting a).IsClosed) (ha : itemPieces a = front ++ [last])
    (hb : itemPieces b = first :: back) :
    itemTexts (sumText a b)
      = keptPieces front ++ trim (meeting last first) :: keptPieces back := by
  have hmeet : trim (meeting last first) ≠ [] :=
    trim_ne_nil (c := ']') (by simp [meeting]) rfl
  rw [sumText_eq, itemTexts_inBrackets, itemPieces_meeting hclosed ha hb, keptPieces_append,
    keptPieces_cons hmeet]

/-- Where two words meet, the sum of two arrays that have values has one. -/
theorem resolve_sumText_of_words {x y lead trail : List Char} {front back : List (List Char)}
    {xs ys : List Value} (hclosed : (Scan.nesting a).IsClosed)
    (ha : itemPieces a = front ++ [lead ++ x]) (hb : itemPieces b = (y ++ trail) :: back)
    (hlead : ∀ c ∈ lead, isBlank c = true) (htrail : ∀ c ∈ trail, isBlank c = true)
    (hx : IsWord x) (hy : IsWord y)
    (hxs : scope.resolve (inBrackets a) = .ok (.array xs))
    (hys : scope.resolve (inBrackets b) = .ok (.array ys)) :
    scope.resolve (sumText a b)
      = .ok (.array (xs.dropLast ++ .string (String.ofList (x ++ "][".toList ++ y)) :: ys.tail)) := by
  have hlast : trim (lead ++ x) = x := by rw [trim_append_left hlead, hx.trim_eq]
  have hfirst : trim (y ++ trail) = y := by rw [trim_append_right htrail, hy.trim_eq]
  have hmeet : trim (meeting (lead ++ x) (y ++ trail)) = meeting x y := by
    have hsplit : meeting (lead ++ x) (y ++ trail) = lead ++ (meeting x y ++ trail) := by
      simp [meeting]
    rw [hsplit, trim_append_left hlead, trim_append_right htrail, (isTorn_meeting hx hy).trim_eq]
  rw [resolve_inBrackets_eq_ok_iff, itemTexts_inBrackets, ha, keptPieces_append,
    keptPieces_cons (by rw [hlast]; exact hx.nonempty)] at hxs
  rw [resolve_inBrackets_eq_ok_iff, itemTexts_inBrackets, hb,
    keptPieces_cons (by rw [hfirst]; exact hy.nonempty)] at hys
  have hbefore : List.Forall₂ (fun item v => scope.resolve item = .ok v) (keptPieces front)
      xs.dropLast := by
    have hlength : (keptPieces front).length = xs.length - 1 := by
      rw [← hxs.length_eq, List.length_append]
      rfl
    have htake := List.forall₂_take (keptPieces front).length hxs
    rwa [List.take_left, hlength, ← List.dropLast_eq_take] at htake
  obtain ⟨_, behind, -, hbehind, rfl⟩ := List.forall₂_cons_left_iff.mp hys
  have hitems := itemTexts_sumText hclosed ha hb
  rw [sumText_eq] at hitems ⊢
  rw [resolve_inBrackets_eq_ok_iff, hitems, hmeet]
  exact List.rel_append hbefore (.cons (resolve_meeting scope hx hy) hbehind)

/-- A text in brackets is an array only if it is a group, unless an item between the outermost
    brackets has no value: then it is none, and otherwise it is one all the same. The sum of two
    arrays is no group. Its items are those of the two, with the last of the first and the first of
    the second as one item with what stands between them, and it is an error exactly if one of these
    has no value; where two words meet, it is an array whenever the two are. -/
theorem resolve_outermost (scope : Scope) :
    (∀ inner,
        ((∃ values, scope.resolve (inBrackets inner) = .ok (.array values)) →
            Scan.IsGroup (inBrackets inner))
          ↔ Scan.IsGroup (inBrackets inner)
            ∨ ∃ item ∈ itemTexts (inBrackets inner), ∃ f, scope.resolve item = .error f)
      ∧ ∀ a b, Scan.IsGroup (inBrackets a) → (Scan.nesting (inBrackets a)).braces = 0 →
        ¬ Scan.IsGroup (sumText a b)
          ∧ ((∃ f, scope.resolve (sumText a b) = .error f)
            ↔ ∃ item ∈ itemTexts (sumText a b), ∃ f, scope.resolve item = .error f)
          ∧ (∀ front last first back,
            itemPieces a = front ++ [last] → itemPieces b = first :: back →
            itemTexts (sumText a b)
              = keptPieces front ++ trim (meeting last first) :: keptPieces back)
          ∧ ∀ front lead x y trail back xs ys,
            itemPieces a = front ++ [lead ++ x] → itemPieces b = (y ++ trail) :: back →
            (∀ c ∈ lead, isBlank c = true) → (∀ c ∈ trail, isBlank c = true) →
            IsWord x → IsWord y →
            scope.resolve (inBrackets a) = .ok (.array xs) →
            scope.resolve (inBrackets b) = .ok (.array ys) →
            scope.resolve (sumText a b)
              = .ok (.array (xs.dropLast ++ .string (String.ofList (x ++ "][".toList ++ y))
                  :: ys.tail)) := by
  refine ⟨fun inner => ?_, fun a b hgroup hbraces => ⟨?_, ?_, ?_, ?_⟩⟩
  · rw [exists_array_iff, exists_error_iff, ← Classical.or_iff_not_imp_left, or_comm]
  · rw [sumText, List.append_assoc]
    exact hgroup.not_append (List.cons_ne_nil _ _) (by simp)
  · rw [sumText_eq]
    exact exists_error_iff
  · intro front last first back ha hb
    exact itemTexts_sumText (hgroup.isClosed_inner hbraces) ha hb
  · intro front lead x y trail back xs ys ha hb hlead htrail hx hy hxs hys
    exact resolve_sumText_of_words (hgroup.isClosed_inner hbraces) ha hb hlead htrail hx hy hxs hys

theorem resolve_number (scope : Scope) (n : Int64) :
    scope.resolve (Number.integerText n.toInt) = .ok (.int n) :=
  Scalar.resolveBy_literal _ scope (.int n)

/-- The sum of two arrays of two items has three items. -/
theorem resolve_outermost_pairs :
    ¬ Scan.IsGroup (sumText "1, 2".toList "3, 4".toList)
      ∧ resolve {} (sumText "1, 2".toList "3, 4".toList)
        = .ok (.array [.int 1, .string "2][3", .int 4]) := by
  have hleft : resolve {} (inBrackets "1, 2".toList) = .ok (.array [.int 1, .int 2]) := by
    have hitems : itemTexts (inBrackets "1, 2".toList) = ["1".toList, "2".toList] := by cbv
    rw [resolve_inBrackets_eq_ok_iff, hitems]
    exact .cons (resolve_number {} 1) (.cons (resolve_number {} 2) .nil)
  have hright : resolve {} (inBrackets "3, 4".toList) = .ok (.array [.int 3, .int 4]) := by
    have hitems : itemTexts (inBrackets "3, 4".toList) = ["3".toList, "4".toList] := by cbv
    rw [resolve_inBrackets_eq_ok_iff, hitems]
    exact .cons (resolve_number {} 3) (.cons (resolve_number {} 4) .nil)
  have hlast : itemPieces "1, 2".toList = ["1".toList] ++ [" ".toList ++ "2".toList] := by cbv
  have hfirst : itemPieces "3, 4".toList = ("3".toList ++ []) :: [" 4".toList] := by cbv
  obtain ⟨hgroup, -, -, hsum⟩ :=
    (resolve_outermost {}).2 "1, 2".toList "3, 4".toList (by decide) (by decide)
  exact ⟨hgroup, hsum _ _ _ _ _ _ _ _ hlast hfirst isBlank_of_mem_space (List.forall_mem_nil _)
    (by decide) (by decide) hleft hright⟩

/-- Two arrays of one number with a plus sign between them are no group and an array of one
    string. -/
theorem resolve_sumText_numbers :
    ¬ Scan.IsGroup "[1] + [2]".toList
      ∧ resolve {} "[1] + [2]".toList = .ok (.array [.string "1][2"]) := by
  refine ⟨by decide, ?_⟩
  have hitems : itemTexts (inBrackets "1] + [2".toList) = [meeting "1".toList "2".toList] := by cbv
  have hvalues : List.Forall₂ (fun item v => resolve {} item = .ok v)
      (itemTexts (inBrackets "1] + [2".toList)) [.string "1][2"] := by
    rw [hitems]
    exact .cons (resolve_meeting {} (by decide) (by decide)) .nil
  exact resolve_inBrackets_eq_ok_iff.mpr hvalues

end Scope

end ConfigLang
