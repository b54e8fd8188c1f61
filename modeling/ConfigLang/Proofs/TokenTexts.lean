import ConfigLang.Proofs.BetweenQuotes
import ConfigLang.Proofs.Chain

set_option autoImplicit false

/-! # What the tokens of an expression hold

Tokens and quotes are read by one scan each. Both agree on what stands outside quotes: the operators
of an expression are the operator characters there, and its tokens hold all of its characters but
the blanks there. Only a quote that is never closed loses more, the blanks at its end. Main
statement: `Expr.Token.scan_holds`. -/

namespace ConfigLang

open Text

namespace Scan

/-! ## Characters outside quotes -/

namespace Quotes

/-- The characters of a text that `keep` accepts, where it is told whether they stand outside
    quotes. -/
def select (s : Quotes) (keep : Bool → Char → Bool) (text : List Char) : List Char :=
  ((text.zip (s.trace text)).filter fun read => keep read.2.1 read.1).map Prod.fst

@[simp]
theorem select_nil (s : Quotes) (keep : Bool → Char → Bool) : s.select keep [] = [] := rfl

theorem select_cons (s : Quotes) (keep : Bool → Char → Bool) (c : Char) (rest : List Char) :
    s.select keep (c :: rest)
      = if keep (s.outside c) c then c :: (s.step c).select keep rest
        else (s.step c).select keep rest := by
  unfold select
  rw [trace, List.zip_cons_cons, List.filter_cons]
  split <;> rfl

theorem select_append (s : Quotes) (keep : Bool → Char → Bool) (text rest : List Char) :
    s.select keep (text ++ rest) = s.select keep text ++ (s.scan text).select keep rest := by
  induction text generalizing s with
  | nil => rfl
  | cons c text ih =>
    rw [List.cons_append, scan_cons, select_cons, select_cons, ih]
    split
    · rw [List.cons_append]
    · rfl

end Quotes

/-- The characters outside quotes that satisfy `p`. -/
def unquoted (p : Char → Bool) (text : List Char) : List Char :=
  ({} : Quotes).select (fun outside c => outside && p c) text

/-- A text without the characters outside quotes that satisfy `p`. -/
def withoutUnquoted (p : Char → Bool) (text : List Char) : List Char :=
  ({} : Quotes).select (fun outside c => !(outside && p c)) text

theorem isSome_cutUnquoted?_iff {p : Char → Bool} {text : List Char} :
    (cutUnquoted? p text).isSome = true ↔ unquoted p text ≠ [] := by
  have hstate : ∀ s : Quotes,
      (cutWhen? Quotes.step (fun s c => s.outside c && p c) s text).isSome = true
        ↔ s.select (fun outside c => outside && p c) text ≠ [] := by
    induction text with
    | nil => simp [cutWhen?]
    | cons c rest ih =>
      intro s
      rw [cutWhen?, Quotes.select_cons]
      split
      · simp
      · rw [Option.isSome_map]
        exact ih (s.step c)
  exact hstate {}

/-- A text without the blanks that stand at its end in a quote that is never closed. -/
def settled (text : List Char) : List Char :=
  if (({} : Quotes).scan text).span?.isSome then trimEnd text else text

end Scan

open Scan

namespace Expr

/-! ## Operators -/

theorem Operator.symbol_of_ofChar? {c : Char} {op : Operator} (h : ofChar? c = some op) :
    op.symbol = c := by
  unfold ofChar? at h
  split at h
  case h_6 => exact absurd h (by simp)
  all_goals rw [← Option.some.inj h]; rfl

namespace Token

/-- The operator that a token is. -/
def operator? : Token → Option Operator
  | .operand _ => none
  | .operator op => some op

/-- The characters of a token. -/
def text : Token → List Char
  | .operand text => text
  | .operator op => [op.symbol]

theorem filterMap_operator?_gathered (gathering : List Char) :
    (gathered gathering).filterMap operator? = [] := by
  simp only [gathered]
  split <;> rfl

/-- The operators of a text are the operator characters that stand outside quotes. -/
theorem symbols_scanFrom (s : Quotes) (gathering text : List Char) :
    ((scanFrom s gathering text).filterMap operator?).map Operator.symbol
      = s.select (fun outside c => outside && isOperator c) text := by
  fun_induction scanFrom s gathering text with
  | case1 s gathering => rw [filterMap_operator?_gathered]; rfl
  | case2 s gathering c rest q hs hcloses ih =>
    rw [Quotes.select_cons, if_neg (by simp [Quotes.outside_of_span hs]), ← ih]
    rfl
  | case3 s gathering c rest q hs hopen ih =>
    rw [Quotes.select_cons, if_neg (by simp [Quotes.outside_of_span hs]), ih]
  | case4 s gathering c rest hs hquote ih =>
    rw [Quotes.select_cons, if_neg (by simp [Quotes.outside_of_isQuote s hquote]),
      List.filterMap_append, filterMap_operator?_gathered, List.nil_append, ih]
  | case5 s gathering c rest hs hquote op hop ih =>
    have houtside := Quotes.outside_of_not_quote hs (Bool.eq_false_iff.mpr hquote)
    rw [Quotes.select_cons, if_pos (by simp [houtside, isOperator_iff, hop]),
      List.filterMap_append, filterMap_operator?_gathered, List.nil_append, ← ih,
      ← Operator.symbol_of_ofChar? hop]
    rfl
  | case6 s gathering c rest hs hquote hop hblank ih =>
    rw [Quotes.select_cons, if_neg (by simp [isOperator_iff, hop]),
      List.filterMap_append, filterMap_operator?_gathered, List.nil_append, ih]
  | case7 s gathering c rest hs hquote hop hblank ih =>
    rw [Quotes.select_cons, if_neg (by simp [isOperator_iff, hop]), ih]

theorem filterMap_operator?_ne_nil_iff {tokens : List Token} :
    tokens.filterMap operator? ≠ [] ↔ ∃ op, .operator op ∈ tokens := by
  constructor
  · intro h
    obtain ⟨op, hop⟩ := List.exists_mem_of_ne_nil _ h
    obtain ⟨token, htoken, heq⟩ := List.mem_filterMap.mp hop
    cases token with
    | operand text => exact absurd heq (by simp [operator?])
    | operator other => exact ⟨other, htoken⟩
  · rintro ⟨op, hop⟩
    exact List.ne_nil_of_mem (List.mem_filterMap.mpr ⟨_, hop, rfl⟩)

/-! ## Characters -/

theorem isBlank_of_ofChar? {c : Char} {op : Operator} (h : Operator.ofChar? c = some op) :
    isBlank c = false := by
  rw [← Operator.symbol_of_ofChar? h]
  cases op <;> rfl

/-- What is gathered outside quotes holds no blank, and what is gathered inside begins with none. -/
structure Clean (s : Quotes) (gathering : List Char) : Prop where
  no_blank : s.span? = none → ∀ c ∈ gathering, isBlank c = false
  begins : s.span? ≠ none → ∃ front c, gathering = front ++ [c] ∧ isBlank c = false

theorem clean_nil {s : Quotes} (hs : s.span? = none) : Clean s [] :=
  ⟨fun _ => List.forall_mem_nil _, fun h => absurd hs h⟩

theorem Clean.trimStart_eq {s : Quotes} {gathering : List Char} (h : Clean s gathering) :
    trimStart gathering.reverse = gathering.reverse := by
  by_cases hs : s.span? = none
  · cases hreverse : gathering.reverse with
    | nil => rfl
    | cons c rest =>
      have hmem : c ∈ gathering.reverse := hreverse ▸ List.mem_cons_self
      exact trimStart_cons_of_not_blank (h.no_blank hs c (List.mem_reverse.mp hmem)) rest
  · obtain ⟨front, c, rfl, hc⟩ := h.begins hs
    rw [List.reverse_append]
    exact trimStart_cons_of_not_blank hc front.reverse

/-- An operand loses the blanks at its end only. -/
theorem exists_blanks_gathered {s : Quotes} {gathering : List Char} (h : Clean s gathering) :
    ∃ blanks, gathering.reverse = (gathered gathering).flatMap text ++ blanks
      ∧ (∀ c ∈ blanks, isBlank c = true) ∧ (s.span? = none → blanks = []) := by
  have htext : (gathered gathering).flatMap text = trimEnd gathering.reverse := by
    simp only [gathered, trim, h.trimStart_eq]
    split
    next hempty => exact (List.isEmpty_iff.mp hempty).symm
    next => exact List.append_nil _
  obtain ⟨blanks, heq, hblanks⟩ := exists_trimEnd_append gathering.reverse
  refine ⟨blanks, htext ▸ heq, hblanks, fun hs => ?_⟩
  refine List.eq_nil_iff_forall_not_mem.mpr fun c hc => ?_
  have hmem : c ∈ gathering.reverse := heq ▸ List.mem_append_right _ hc
  have hblank := h.no_blank hs c (List.mem_reverse.mp hmem)
  exact absurd (hblanks c hc) (by simp [hblank])

theorem flatMap_gathered {s : Quotes} (hs : s.span? = none) {gathering : List Char}
    (h : Clean s gathering) : (gathered gathering).flatMap text = gathering.reverse := by
  obtain ⟨blanks, heq, -, hnil⟩ := exists_blanks_gathered h
  rw [heq, hnil hs, List.append_nil]

/-- Whether a character is kept: a blank outside quotes is not. -/
def isKept (outside : Bool) (c : Char) : Bool :=
  !(outside && isBlank c)

/-- The tokens of a text hold what was gathered before it and the characters that are kept of it,
    less blanks at the end if a quote is open there. -/
theorem exists_blanks_scanFrom {s : Quotes} {gathering : List Char} (h : Clean s gathering)
    (chars : List Char) :
    ∃ blanks, gathering.reverse ++ s.select isKept chars
        = (scanFrom s gathering chars).flatMap text ++ blanks
      ∧ (∀ c ∈ blanks, isBlank c = true) ∧ ((s.scan chars).span? = none → blanks = []) := by
  fun_induction scanFrom s gathering chars with
  | case1 s gathering =>
    obtain ⟨blanks, heq, hblanks, hnil⟩ := exists_blanks_gathered h
    exact ⟨blanks, (List.append_nil _).trans heq, hblanks, hnil⟩
  | case2 s gathering c rest q hs hcloses ih =>
    have hstep := Quotes.span_step_of_closes hs hcloses
    obtain ⟨blanks, heq, hblanks, hnil⟩ := ih (clean_nil hstep)
    refine ⟨blanks, ?_, hblanks, hnil⟩
    rw [List.reverse_nil, List.nil_append] at heq
    rw [Quotes.select_cons, if_pos (by simp [isKept, Quotes.outside_of_span hs]), heq]
    simp [text]
  | case3 s gathering c rest q hs hopen ih =>
    have hstep := Quotes.span_step_of_not_closes hs (Bool.eq_false_iff.mpr hopen)
    have hclean : Clean (s.step c) (c :: gathering) := by
      refine ⟨fun hnone => absurd (hstep.symm.trans hnone) (by simp), fun _ => ?_⟩
      obtain ⟨front, d, rfl, hd⟩ := h.begins (by simp [hs])
      exact ⟨c :: front, d, rfl, hd⟩
    obtain ⟨blanks, heq, hblanks, hnil⟩ := ih hclean
    refine ⟨blanks, ?_, hblanks, hnil⟩
    rw [Quotes.select_cons, if_pos (by simp [isKept, Quotes.outside_of_span hs]), ← heq]
    simp
  | case4 s gathering c rest hs hquote ih =>
    have hstep := Quotes.span_step_of_opening hs hquote
    have hclean : Clean (s.step c) [c] :=
      ⟨fun hnone => absurd (hstep.symm.trans hnone) (by simp),
        fun _ => ⟨[], c, rfl, isBlank_of_isQuote hquote⟩⟩
    obtain ⟨blanks, heq, hblanks, hnil⟩ := ih hclean
    refine ⟨blanks, ?_, hblanks, hnil⟩
    rw [Quotes.select_cons, if_pos (by simp [isKept, Quotes.outside_of_isQuote s hquote]),
      List.flatMap_append, flatMap_gathered hs h, List.append_assoc, ← heq]
    rfl
  | case5 s gathering c rest hs hquote op hop ih =>
    have hstep := Quotes.span_step_of_not_quote hs (Bool.eq_false_iff.mpr hquote)
    obtain ⟨blanks, heq, hblanks, hnil⟩ := ih (clean_nil hstep)
    refine ⟨blanks, ?_, hblanks, hnil⟩
    rw [List.reverse_nil, List.nil_append] at heq
    rw [Quotes.select_cons, if_pos (by simp [isKept, isBlank_of_ofChar? hop]),
      List.flatMap_append, flatMap_gathered hs h, heq, ← Operator.symbol_of_ofChar? hop]
    simp [text]
  | case6 s gathering c rest hs hquote hop hblank ih =>
    have houtside := Quotes.outside_of_not_quote hs (Bool.eq_false_iff.mpr hquote)
    have hstep := Quotes.span_step_of_not_quote hs (Bool.eq_false_iff.mpr hquote)
    obtain ⟨blanks, heq, hblanks, hnil⟩ := ih (clean_nil hstep)
    refine ⟨blanks, ?_, hblanks, hnil⟩
    rw [List.reverse_nil, List.nil_append] at heq
    rw [Quotes.select_cons, if_neg (by simp [isKept, houtside, hblank]),
      List.flatMap_append, flatMap_gathered hs h, heq, List.append_assoc]
  | case7 s gathering c rest hs hquote hop hblank ih =>
    have hstep := Quotes.span_step_of_not_quote hs (Bool.eq_false_iff.mpr hquote)
    have hc := Bool.eq_false_iff.mpr hblank
    have hclean : Clean (s.step c) (c :: gathering) :=
      ⟨fun _ => List.forall_mem_cons.mpr ⟨hc, h.no_blank hs⟩, fun hne => absurd hstep hne⟩
    obtain ⟨blanks, heq, hblanks, hnil⟩ := ih hclean
    refine ⟨blanks, ?_, hblanks, hnil⟩
    rw [Quotes.select_cons, if_pos (by simp [isKept, hc]), ← heq]
    simp

/-- Blanks at the end inside an open quote change no token. -/
theorem scanFrom_append_of_blank {s : Quotes} {chars blanks : List Char} {q : Char}
    (hspan : (s.scan chars).span? = some q) (hq : isBlank q = false)
    (hblanks : ∀ c ∈ blanks, isBlank c = true) (gathering : List Char) :
    scanFrom s gathering (chars ++ blanks) = scanFrom s gathering chars := by
  induction chars generalizing s gathering with
  | nil =>
    have hnot : q ∉ blanks := fun hmem => absurd (hblanks q hmem) (by simp [hq])
    have hinside := scanFrom_in_span hspan hnot gathering []
    rw [List.append_nil, Quotes.scan_nil] at hinside
    rw [List.nil_append, hinside, scanFrom, scanFrom, gathered, gathered, List.reverse_append,
      List.reverse_reverse, trim_append_right hblanks]
  | cons c rest ih =>
    rw [Quotes.scan_cons] at hspan
    rw [List.cons_append, scanFrom, scanFrom]
    cases s.span? with
    | some p =>
      dsimp only
      split <;> rw [ih hspan]
    | none =>
      dsimp only
      rw [ih hspan, ih hspan, ih hspan]

/-- Of a text that ends in no blank its tokens hold all that is kept. -/
theorem flatMap_text_scan_of_last {chars : List Char}
    (h : ∀ c ∈ chars.getLast?, isBlank c = false) :
    (scan chars).flatMap text = withoutUnquoted isBlank chars := by
  obtain ⟨blanks, heq, hblanks, -⟩ := exists_blanks_scanFrom (@clean_nil {} rfl) chars
  rw [List.reverse_nil, List.nil_append] at heq
  rcases List.eq_nil_or_concat chars with rfl | ⟨front, c, hchars⟩
  · rfl
  rw [List.concat_eq_append] at hchars
  subst hchars
  have hc : isBlank c = false := h c (by simp)
  have hlast : ({} : Quotes).select isKept (front ++ [c])
      = ({} : Quotes).select isKept front ++ [c] := by
    rw [Quotes.select_append, Quotes.select_cons, if_pos (by simp [isKept, hc]), Quotes.select_nil]
  -- the character that is kept last is no blank, so nothing is lost behind it
  have hnil : blanks = [] := by
    refine List.getLast?_eq_none_iff.mp (Option.eq_none_iff_forall_ne_some.mpr fun d hd => ?_)
    have hwhole := congrArg List.getLast? heq
    rw [hlast, List.getLast?_concat, List.getLast?_append, hd, Option.some_or,
      Option.some.injEq] at hwhole
    exact absurd (hblanks d (List.mem_of_getLast? hd)) (by simp [← hwhole, hc])
  rw [hnil, List.append_nil] at heq
  exact heq.symm

theorem span_scan_trimEnd {s : Quotes} {chars : List Char}
    (hquoted : ∀ q ∈ s.span?, isQuote q = true) :
    (s.scan (trimEnd chars)).span? = (s.scan chars).span? := by
  obtain ⟨blanks, heq, hblanks⟩ := exists_trimEnd_append chars
  have hwhole : s.scan chars = (s.scan (trimEnd chars)).scan blanks :=
    (congrArg s.scan heq).trans (Quotes.scan_append s _ _)
  rw [hwhole]
  cases hspan : (s.scan (trimEnd chars)).span? with
  | none =>
    have hquote : ∀ c ∈ blanks, isQuote c = false := fun c hc =>
      isQuote_of_isDelimiter (by simp [isDelimiter, hblanks c hc])
    exact (Quotes.span_scan_of_not_quote hspan hquote).symm
  | some q =>
    have hq := isBlank_of_isQuote (Quotes.isQuote_of_span_scan hquoted _ q hspan)
    have hnot : q ∉ blanks := fun hmem => absurd (hblanks q hmem) (by simp [hq])
    exact (Quotes.hides_in_span hspan hnot).2.symm

theorem flatMap_text_scan (chars : List Char) :
    (scan chars).flatMap text = withoutUnquoted isBlank (settled chars) := by
  have hquoted : ∀ q ∈ ({} : Quotes).span?, isQuote q = true := fun q hq => absurd hq (by simp)
  cases hspan : (({} : Quotes).scan chars).span? with
  | none =>
    obtain ⟨blanks, heq, -, hnil⟩ := exists_blanks_scanFrom (@clean_nil {} rfl) chars
    rw [settled, hspan, Option.isSome_none, if_neg (by simp)]
    rw [hnil hspan, List.append_nil, List.reverse_nil, List.nil_append] at heq
    exact heq.symm
  | some q =>
    rw [settled, hspan, Option.isSome_some, if_pos rfl,
      ← flatMap_text_scan_of_last (getLast_trimEnd chars)]
    have hq := isBlank_of_isQuote (Quotes.isQuote_of_span_scan hquoted _ q hspan)
    obtain ⟨blanks, heq, hblanks⟩ := exists_trimEnd_append chars
    have hscan : scan (trimEnd chars ++ blanks) = scan (trimEnd chars) :=
      scanFrom_append_of_blank ((span_scan_trimEnd hquoted).trans hspan) hq hblanks []
    rw [← heq] at hscan
    rw [hscan]

/-- The operators among the tokens of a text are the operator characters that a scan of quotes sees
    outside quotes, in their order. All tokens together are the text without the blanks outside
    quotes and, if its last quote is never closed, without the blanks at its end. -/
theorem scan_holds (chars : List Char) :
    ((scan chars).filterMap operator?).map Operator.symbol = unquoted isOperator chars
      ∧ (hasOperator chars = true ↔ ∃ op, .operator op ∈ scan chars)
      ∧ (scan chars).flatMap text = withoutUnquoted isBlank (settled chars) := by
  have hsymbols := symbols_scanFrom {} [] chars
  refine ⟨hsymbols, ?_, flatMap_text_scan chars⟩
  rw [hasOperator, isSome_cutUnquoted?_iff, ← filterMap_operator?_ne_nil_iff]
  rw [unquoted, ← hsymbols, Ne, List.map_eq_nil_iff]
  rfl

-- the blanks behind the opening quote stay, those at the end go
example : (scan "a - \"  b  ".toList).flatMap text = "a-\"  b".toList := by decide

end Token

end Expr

end ConfigLang
