import ConfigLang.Proofs.BetweenQuotes
import ConfigLang.Proofs.Chain
import ConfigLang.Proofs.FloatReading

set_option autoImplicit false

/-! # Arrays written as JSON

An array written as JSON is split at its own commas again, as every item closes the brackets that it
opens. Main statement: JSON in which no quote and no operator stands describes the value that it was
written for (`describes_write`). -/

namespace ConfigLang

open Text

/-! ## Closed texts -/

namespace Scan

/-- The characters that a count of brackets and braces depends on, and the comma. -/
def marks : List Char :=
  ['"', '\'', '[', ']', '\x7b', '\x7d', ',']

/-- A text that scanning leaves at the same count, without a comma outside brackets. -/
structure Nesting.Passes (s : Nesting) (text : List Char) : Prop where
  no_cut : cutWhen? step (fun s c => s.atTop c && c == ',') s text = none
  span_eq : (text.foldl step s).quotes.span? = none
  brackets_eq : (text.foldl step s).brackets = s.brackets
  braces_eq : (text.foldl step s).braces = s.braces

/-- A text without quotes that closes the brackets it opens, and no others. -/
def Closed (text : List Char) : Prop :=
  ∀ s : Nesting, s.quotes.span? = none → 0 ≤ s.brackets → s.Passes text

namespace Nesting

variable {s : Nesting} {c : Char}

theorem step_of_not_quote (hs : s.quotes.span? = none) (hc : isQuote c = false) :
    (s.step c).quotes.span? = none ∧ (s.step c).brackets = s.brackets + bracketChange c
      ∧ (s.step c).braces = s.braces + braceChange c := by
  have houtside : s.quotes.outside c = true := Quotes.outside_of_not_quote hs hc
  refine ⟨Quotes.span_step_of_not_quote hs hc, ?_, ?_⟩ <;> simp [step, houtside]

theorem passes_nil (hs : s.quotes.span? = none) : s.Passes [] :=
  ⟨rfl, hs, rfl, rfl⟩

theorem Passes.append {text rest : List Char} (h : s.Passes text)
    (hrest : (text.foldl step s).Passes rest) : s.Passes (text ++ rest) where
  no_cut := by rw [cutWhen?_append h.no_cut, hrest.no_cut, Option.map_none]
  span_eq := by rw [List.foldl_append, hrest.span_eq]
  brackets_eq := by rw [List.foldl_append, hrest.brackets_eq, h.brackets_eq]
  braces_eq := by rw [List.foldl_append, hrest.braces_eq, h.braces_eq]

/-- Behind a text that a scan passes as many brackets are open as before it. -/
theorem passes_append {p : Int → Prop} {text rest : List Char}
    (h : ∀ s : Nesting, s.quotes.span? = none → p s.brackets → s.Passes text)
    (hrest : ∀ s : Nesting, s.quotes.span? = none → p s.brackets → s.Passes rest)
    (s : Nesting) (hs : s.quotes.span? = none) (hbrackets : p s.brackets) :
    s.Passes (text ++ rest) := by
  have hpass := h s hs hbrackets
  refine hpass.append (hrest _ hpass.span_eq ?_)
  rw [hpass.brackets_eq]
  exact hbrackets

/-- A character that is no mark changes nothing. -/
theorem passes_singleton (hs : s.quotes.span? = none) (hc : c ∉ marks) : s.Passes [c] := by
  simp only [marks, List.mem_cons, List.not_mem_nil, or_false, not_or] at hc
  obtain ⟨hdouble, hsingle, hopen, hclose, hbrace, hunbrace, hcomma⟩ := hc
  have hquote : isQuote c = false := by simp [isQuote, hdouble, hsingle]
  have hbracketChange : bracketChange c = 0 := by
    unfold bracketChange
    split
    · exact absurd rfl hopen
    · exact absurd rfl hclose
    · rfl
  have hbraceChange : braceChange c = 0 := by
    unfold braceChange
    split
    · exact absurd rfl hbrace
    · exact absurd rfl hunbrace
    · rfl
  obtain ⟨hspan, hbrackets, hbraces⟩ := step_of_not_quote hs hquote
  refine ⟨by simp [cutWhen?, hcomma], hspan, ?_, ?_⟩
  · rw [List.foldl_cons, List.foldl_nil, hbrackets, hbracketChange, Int.add_zero]
  · rw [List.foldl_cons, List.foldl_nil, hbraces, hbraceChange, Int.add_zero]

/-- Inside brackets a comma cuts nothing. -/
theorem passes_comma (hs : s.quotes.span? = none) (hbrackets : 0 < s.brackets) :
    s.Passes [','] := by
  obtain ⟨hspan, hsame, hbraces⟩ := step_of_not_quote (c := ',') hs rfl
  have htop : s.atTop ',' = false := by
    have hne : (s.brackets == 0) = false := by
      rw [beq_eq_false_iff_ne]
      omega
    simp [atTop, hne]
  refine ⟨by simp [cutWhen?, htop], hspan, ?_, ?_⟩
  · rw [List.foldl_cons, List.foldl_nil, hsame]
    exact Int.add_zero _
  · rw [List.foldl_cons, List.foldl_nil, hbraces]
    exact Int.add_zero _

end Nesting

theorem closed_nil : Closed [] :=
  fun _ hs _ => Nesting.passes_nil hs

theorem Closed.append {text rest : List Char} (h : Closed text) (hrest : Closed rest) :
    Closed (text ++ rest) :=
  Nesting.passes_append h hrest

theorem closed_of_no_marks {text : List Char} (h : ∀ c ∈ text, c ∉ marks) : Closed text := by
  induction text with
  | nil => exact closed_nil
  | cons c rest ih =>
    have hhead : Closed [c] :=
      fun _ hs _ => Nesting.passes_singleton hs (h c List.mem_cons_self)
    exact hhead.append (ih fun d hd => h d (List.mem_cons_of_mem _ hd))

/-! ### Inside brackets -/

/-- A text that closes what it opens inside brackets, where commas may stand. -/
def ClosedInside (text : List Char) : Prop :=
  ∀ s : Nesting, s.quotes.span? = none → 0 < s.brackets → s.Passes text

theorem Closed.inside {text : List Char} (h : Closed text) : ClosedInside text :=
  fun s hs hbrackets => h s hs (Int.le_of_lt hbrackets)

theorem ClosedInside.append {text rest : List Char} (h : ClosedInside text)
    (hrest : ClosedInside rest) : ClosedInside (text ++ rest) :=
  Nesting.passes_append h hrest

/-- Inside brackets a comma may follow a closed text. -/
theorem ClosedInside.comma {text rest : List Char} (h : ClosedInside text)
    (hrest : ClosedInside rest) : ClosedInside (text ++ ',' :: rest) := by
  have hcomma : ClosedInside [','] := fun _ hs hbrackets => Nesting.passes_comma hs hbrackets
  exact h.append (hcomma.append hrest)

theorem closedInside_intercalate {pieces : List (List Char)} (h : ∀ piece ∈ pieces, Closed piece) :
    ClosedInside ([','].intercalate pieces) := by
  induction pieces with
  | nil => exact closed_nil.inside
  | cons piece rest ih =>
    rw [List.forall_mem_cons] at h
    cases rest with
    | nil =>
      rw [List.intercalate_singleton]
      exact h.1.inside
    | cons next others =>
      rw [List.intercalate_cons_cons, List.append_assoc, List.singleton_append]
      exact h.1.inside.comma (ih h.2)

/-- Brackets around a text that closes what it opens are closed. -/
theorem ClosedInside.bracketed {inner : List Char} (h : ClosedInside inner) :
    Closed ('[' :: (inner ++ [']'])) := by
  intro s hs hbrackets
  obtain ⟨hspan, hmore, hbraces⟩ := Nesting.step_of_not_quote (c := '[') hs rfl
  have hinside : 0 < (s.step '[').brackets := by
    rw [hmore]
    exact Int.lt_add_one_of_le hbrackets
  have hitems : (s.step '[').Passes inner := h _ hspan hinside
  set t := inner.foldl Nesting.step (s.step '[') with ht
  obtain ⟨hlast, hless, hlastBraces⟩ := Nesting.step_of_not_quote (c := ']') hitems.span_eq rfl
  have hfold : ('[' :: (inner ++ [']'])).foldl Nesting.step s = t.step ']' := by
    rw [List.foldl_cons, List.foldl_append, ht]
    rfl
  -- behind the opening bracket no comma is at the top, and the closing bracket is no comma
  have hcut : cutWhen? Nesting.step (fun s c => s.atTop c && c == ',') (s.step '[')
      (inner ++ [']']) = none := by
    rw [cutWhen?_append hitems.no_cut]
    simp [cutWhen?]
  refine ⟨?_, by rw [hfold]; exact hlast, ?_, ?_⟩
  · rw [cutWhen?, hcut]
    simp
  · rw [hfold, hless, hitems.brackets_eq, hmore]
    show s.brackets + 1 + -1 = s.brackets
    omega
  · rw [hfold, hlastBraces, hitems.braces_eq, hbraces]
    show s.braces + 0 + 0 = s.braces
    omega

/-! ### Quoted texts -/

/-- In a hidden text nothing is counted and no comma found. -/
theorem Nesting.passes_of_hides {s : Nesting} {text : List Char}
    (h : s.quotes.hides text = true) (hspan : (s.quotes.scan text).span? = none) :
    s.Passes text := by
  have hscan : cutWhen? step (fun s c => s.atTop c && c == ',') s text = none
      ∧ text.foldl step s = { s with quotes := s.quotes.scan text } := by
    clear hspan
    induction text generalizing s with
    | nil => exact ⟨rfl, rfl⟩
    | cons c rest ih =>
      rw [Quotes.hides, Bool.and_eq_true, Bool.not_eq_true'] at h
      have hstep : s.step c = { s with quotes := s.quotes.step c } := by simp [step, h.1]
      obtain ⟨hcut, hfold⟩ := @ih (s.step c) (by rw [hstep]; exact h.2)
      constructor
      · rw [cutWhen?, hcut]
        simp [atTop, h.1]
      · rw [List.foldl_cons, hfold, hstep]
        rfl
  exact ⟨hscan.1, by rw [hscan.2]; exact hspan, by rw [hscan.2], by rw [hscan.2]⟩

theorem closed_quote {text : List Char} (h : text.getLast? ≠ some '\\') : Closed (quote text) :=
  fun _ hs _ => Nesting.passes_of_hides (Quotes.hides_quote hs text) (Quotes.span_scan_quote hs h)

theorem closed_emptyObject : Closed ['\x7b', '\x7d'] := by
  intro s hs _
  obtain ⟨hspan, hsame, hmore⟩ := Nesting.step_of_not_quote (c := '\x7b') hs rfl
  obtain ⟨hlast, hsame', hless⟩ := Nesting.step_of_not_quote (c := '\x7d') hspan rfl
  refine ⟨by simp [cutWhen?], hlast, ?_, ?_⟩
  · rw [List.foldl_cons, List.foldl_cons, List.foldl_nil, hsame', hsame]
    show s.brackets + 0 + 0 = s.brackets
    omega
  · rw [List.foldl_cons, List.foldl_cons, List.foldl_nil, hless, hmore]
    show s.braces + 1 + -1 = s.braces
    omega

/-- A closed text is one piece. -/
theorem splitTopLevel_of_closed {text : List Char} (h : Closed text) :
    splitTopLevel ',' text = [text] :=
  splitTopLevel_of_none (h {} rfl (Int.le_refl 0)).no_cut

/-- The first comma at the top is the one behind a closed text. -/
theorem splitTopLevel_append_comma {piece : List Char} (h : Closed piece) (rest : List Char) :
    splitTopLevel ',' (piece ++ ',' :: rest) = piece :: splitTopLevel ',' rest := by
  have hpass := h {} rfl (Int.le_refl 0)
  have htop : (piece.foldl Nesting.step {}).atTop ',' = true := by
    have houtside := Quotes.outside_of_not_quote (c := ',') hpass.span_eq rfl
    simp [Nesting.atTop, houtside, hpass.brackets_eq, hpass.braces_eq, Nesting.bracketChange,
      Nesting.braceChange]
  have hfound : cutTopLevel? (· == ',') (piece ++ ',' :: rest) = some (piece, rest) := by
    rw [cutTopLevel?, cutWhen?_append hpass.no_cut, cutWhen?]
    simp [htop]
  exact splitTopLevel_of_some hfound

/-- Closed texts joined by commas split into the same texts. -/
theorem splitTopLevel_intercalate {pieces : List (List Char)} (hne : pieces ≠ [])
    (h : ∀ piece ∈ pieces, Closed piece) :
    splitTopLevel ',' ([','].intercalate pieces) = pieces := by
  induction pieces with
  | nil => exact absurd rfl hne
  | cons piece rest ih =>
    rw [List.forall_mem_cons] at h
    cases rest with
    | nil =>
      rw [List.intercalate_singleton]
      exact splitTopLevel_of_closed h.1
    | cons next others =>
      rw [List.intercalate_cons_cons, List.append_assoc, List.singleton_append,
        splitTopLevel_append_comma h.1, ih (by simp) h.2]

end Scan

/-! ## Texts that describe a value -/

/-- A text that describes a value wherever it stands, also among the items of an array. -/
structure Describes (scope : Scope) (text : List Char) (v : Value) : Prop where
  nonempty : text ≠ []
  isBlank_of_mem : ∀ c ∈ text, isBlank c = false
  head_ne : ∀ c ∈ text.head?, c ≠ '$'
  simple : isSimpleLiteral text = true
  closed : Scan.Closed text
  finish_eq : (Literal.ofText text).bind (·.finish (scope.resolveBy none)) = .ok v

namespace Describes

variable {scope : Scope} {text : List Char} {v : Value}

theorem resolveOperand_eq (h : Describes scope text v) : scope.resolveOperand text = .ok v :=
  (scope.resolveOperand_of_simple h.simple).trans h.finish_eq

theorem resolveBy_eq (h : Describes scope text v) : scope.resolveBy none text = .ok v := by
  have henv : scope.env.expand? text = none := scope.env.expand?_of_head_ne h.head_ne
  have hresolve := @Scope.resolveBy_of_simple none scope text
  rw [trim_of_no_blank h.isBlank_of_mem] at hresolve
  exact (hresolve h.nonempty henv h.simple).trans h.finish_eq

theorem ofValue (hne : text ≠ []) (hblank : ∀ c ∈ text, isBlank c = false)
    (hhead : ∀ c ∈ text.head?, c ≠ '$') (hsimple : isSimpleLiteral text = true)
    (hclosed : Scan.Closed text) (hliteral : Literal.ofText text = .ok (.value v)) :
    Describes scope text v :=
  ⟨hne, hblank, hhead, hsimple, hclosed, by rw [hliteral]; rfl⟩

end Describes

/-! ## Arrays -/

section

variable {scope : Scope} {texts : List (List Char)} {values : List Value}

/-- A list has values exactly if all its items have. -/
theorem mapM_eq_ok_iff {α β : Type} {f : α → Except Fault β} {items : List α} {values : List β} :
    items.mapM f = .ok values ↔ List.Forall₂ (fun item v => f item = .ok v) items values := by
  induction items generalizing values with
  | nil =>
    rw [List.mapM_nil, List.forall₂_nil_left_iff]
    exact ⟨fun h => (Except.ok.inj h).symm, fun h => by rw [h]; rfl⟩
  | cons item rest ih =>
    rw [List.mapM_cons, List.forall₂_cons_left_iff]
    constructor
    · intro h
      obtain ⟨first, hfirst, h⟩ := exists_of_bind h
      obtain ⟨later, hlater, h⟩ := exists_of_bind h
      exact ⟨first, later, hfirst, ih.mp hlater, (Except.ok.inj h).symm⟩
    · rintro ⟨first, later, hfirst, hlater, rfl⟩
      rw [hfirst, ih.mpr hlater]
      rfl

theorem closed_of_mem (h : List.Forall₂ (Describes scope) texts values) :
    ∀ text ∈ texts, text ≠ [] ∧ (∀ c ∈ text, isBlank c = false) ∧ Scan.Closed text := by
  induction h with
  | nil => exact fun _ hmem => absurd hmem List.not_mem_nil
  | cons hhead _ ih =>
    intro text hmem
    rcases List.mem_cons.mp hmem with rfl | hrest
    · exact ⟨hhead.nonempty, hhead.isBlank_of_mem, hhead.closed⟩
    · exact ih text hrest

/-- Texts in brackets are the items again. -/
theorem itemTexts_array (h : List.Forall₂ (Describes scope) texts values) :
    itemTexts ('[' :: ([','].intercalate texts ++ [']'])) = texts := by
  have htexts := closed_of_mem h
  have hblank : ∀ c ∈ [','].intercalate texts, isBlank c = false := by
    intro c hc
    rcases mem_intercalate hc with rfl | ⟨text, htext, hmem⟩
    · rfl
    · exact (htexts text htext).2.1 c hmem
  have hbreak : '\n' ∉ [','].intercalate texts := fun hmem => absurd (hblank _ hmem) (by decide)
  have hcontent : bracketContent ('[' :: ([','].intercalate texts ++ [']']))
      = [','].intercalate texts := by
    rw [bracketContent, between?_append_singleton]
    rfl
  rw [itemTexts, hcontent, trim_of_no_blank hblank, joinLines_of_not_mem hbreak]
  cases htexts' : texts with
  | nil =>
    simp only [List.intercalate_nil, Scan.splitTopLevel_of_closed Scan.closed_nil]
    rfl
  | cons first rest =>
    rw [← htexts', Scan.splitTopLevel_intercalate (by rw [htexts']; simp)
      fun text htext => (htexts text htext).2.2]
    have hsame : texts.map trim = texts := by
      rw [List.map_congr_left fun text htext => trim_of_no_blank (htexts text htext).2.1,
        List.map_id']
    rw [hsame, List.filter_eq_self]
    intro text htext
    simp [(htexts text htext).1]

/-- Texts that describe values, in brackets, describe the array of the values. -/
theorem describes_array (h : List.Forall₂ (Describes scope) texts values) :
    Describes scope ('[' :: [','].intercalate texts ++ [']']) (.array values) := by
  have htexts := closed_of_mem h
  have hblank : ∀ c ∈ '[' :: [','].intercalate texts ++ [']'], isBlank c = false := by
    intro c hc
    rcases List.mem_append.mp hc with hfront | hlast
    · rcases List.mem_cons.mp hfront with rfl | hmem
      · rfl
      · rcases mem_intercalate hmem with rfl | ⟨text, htext, hmem⟩
        · rfl
        · exact (htexts text htext).2.1 c hmem
    · rw [List.mem_singleton.mp hlast]
      rfl
  have htrim : trim ('[' :: [','].intercalate texts ++ [']'])
      = '[' :: ([','].intercalate texts ++ [']']) := trim_of_no_blank hblank
  refine ⟨by simp, hblank, by simp, isSimpleLiteral_of_bracketed htrim,
    (Scan.closedInside_intercalate fun text htext => (htexts text htext).2.2).bracketed, ?_⟩
  rw [Literal.ofText_of_bracketed htrim]
  simp only [Except.bind, Literal.finish]
  have hvalues := h.imp fun _ _ => Describes.resolveBy_eq
  rw [itemTexts_array h, mapM_eq_ok_iff.mpr hvalues]
  rfl

end

/-! ## JSON without breaks -/

section

open Expr.Token (isBreak)

variable {scope : Scope}

/-- A text of characters of one class, to which no mark belongs, is closed. -/
theorem closed_of_class {p : Char → Bool} (hp : Scan.marks.all (!p ·) = true) {text : List Char}
    (h : ∀ c ∈ text, p c = true) : Scan.Closed text := by
  apply Scan.closed_of_no_marks
  intro c hc hmark
  have hnot := List.all_eq_true.mp hp c hmark
  rw [h c hc] at hnot
  exact absurd hnot (by decide)

theorem closed_word {x : Scalar} (h : x.isWord = true) : Scan.Closed x.literal :=
  closed_of_class rfl (Scalar.isLower_of_mem_word h)

theorem closed_of_blank {gap : List Char} (h : ∀ c ∈ gap, isBlank c = true) : Scan.Closed gap :=
  closed_of_class rfl h

theorem closed_integerText (n : ℤ) : Scan.Closed (Number.integerText n) := by
  apply @closed_of_class (fun c => !isNoLead c) rfl
  intro c hc
  rw [isNoLead_of_mem_integer (Number.isInteger_integerText n) hc]
  rfl

theorem describes_word {x : Scalar} (h : x.isWord = true) : Describes scope x.literal x.value :=
  .ofValue x.literal_ne_nil (fun _ hc => Scalar.isBlank_of_mem_word h hc)
    (Scalar.head_literal_ne (Or.inl rfl) x) x.isSimpleLiteral_literal (closed_word h) x.ofText_literal

theorem describes_int (n : Int64) :
    Describes scope (Number.integerText n.toInt) (.int n) := by
  have hinteger := Number.isInteger_integerText n.toInt
  exact .ofValue (Number.integerText_ne_nil _) (fun _ hc => isBlank_of_mem_integer hinteger hc)
    (Scalar.head_literal_ne (Or.inl rfl) (.int n)) (isSimpleLiteral_integer hinteger)
    (closed_integerText _) (Scalar.ofText_literal (.int n))

theorem describes_pointed {whole fraction : List Char} (hwhole : Number.isDigits whole = true)
    (hfraction : ∀ c ∈ fraction, c.isDigit = true) :
    Describes scope (whole ++ '.' :: fraction)
      (.float (Number.nearestDecimal false (Number.pointed whole fraction))) := by
  have hclass : ∀ c ∈ whole ++ '.' :: fraction, (c.isDigit || c == '.') = true := by
    intro c hc
    rcases isDigit_or_point_of_mem hwhole hfraction hc with hdigit | rfl
    · simp [hdigit]
    · rfl
  refine .ofValue (by simp) ?_ ?_ (isSimpleLiteral_pointed hwhole hfraction)
    (closed_of_class rfl hclass) (Literal.ofText_pointed hwhole hfraction)
  · intro c hc
    rcases isDigit_or_point_of_mem hwhole hfraction hc with hdigit | rfl
    · exact isBlank_of_isAlphanum (by simp [Char.isAlphanum, hdigit])
    · rfl
  · intro c hc
    exact ne_of_class (p := fun c => c.isDigit || c == '.') (hclass c (List.mem_of_mem_head? hc)) rfl

/-- With a plus sign for the others, every exponent has its sign. -/
theorem exists_break_exponentText (digits : List Char) (e : ℤ) :
    ∃ c ∈ Number.exponentText true digits e, isBreak c = true := by
  by_cases hneg : e < 0
  · exact ⟨'-', by simp [Number.exponentText, hneg], rfl⟩
  · exact ⟨'+', by simp [Number.exponentText, hneg], rfl⟩

theorem isPositional_of_no_break {x : Number.Magnitude}
    (h : ∀ c ∈ Number.magnitudeText .double .nested x, isBreak c = false) :
    Number.FloatForm.nested.isPositional x := by
  by_contra hnot
  rw [Number.FloatForm.isPositional, not_or] at hnot
  rw [Number.magnitudeText, if_neg hnot.1] at h
  dsimp only at h
  rw [if_neg hnot.2] at h
  obtain ⟨c, hc, hbreak⟩ := exists_break_exponentText _ _
  rw [h c hc] at hbreak
  exact absurd hbreak (by decide)

theorem describes_float {x : Float} (h : ∀ c ∈ Json.writeFloat x, isBreak c = false) :
    Describes scope (Json.writeFloat x) (Json.project (.float x)) := by
  unfold Json.writeFloat at h ⊢
  rw [Json.project]
  split
  next hfinite =>
    rw [if_pos hfinite] at h
    unfold Number.isFinite at hfinite
    split at hfinite
    next negative m hparts =>
      rw [Number.floatText, hparts, Number.partsText] at h ⊢
      cases negative with
      | true => exact absurd (h '-' List.mem_cons_self) (by decide)
      | false =>
        obtain ⟨whole, fraction, htext, hwhole, hfraction, hvalue⟩ :=
          Number.exists_magnitudeText (Number.holds_of_decode hparts) (isPositional_of_no_break h)
        have hdescribes : Describes scope _ _ := describes_pointed hwhole hfraction
        rw [hvalue, Number.ofParts_partsOf hparts, ← htext] at hdescribes
        exact hdescribes
    next => exact absurd hfinite (by decide)
  next => exact describes_word (x := .null) rfl

theorem describes_emptyObject : Describes scope ['\x7b', '\x7d'] (.object []) :=
  .ofValue (by simp) (List.forall_mem_cons.mpr ⟨rfl, by simp; rfl⟩) (by simp) (by decide)
    Scan.closed_emptyObject (by with_unfolding_all rfl)

mutual

/-- JSON without quotes and operators describes what it keeps of its value. -/
theorem describes_write (v : Value) (h : ∀ c ∈ Json.write v, isBreak c = false) :
    Describes scope (Json.write v) (Json.project v) :=
  match v with
  | .null => describes_word (x := .null) rfl
  | .bool b => describes_word (x := .bool b) rfl
  | .int n => describes_int n
  | .float x => describes_float h
  | .string s => absurd (h '"' (by simp [Json.write, Json.writeString])) (by decide)
  | .array items => by
    rw [Json.write] at h ⊢
    refine describes_array (describes_writeItems items fun text htext c hc => h c ?_)
    have hmem : c ∈ [','].intercalate (Json.writeItems items) := mem_intercalate_of_mem htext hc
    simp [hmem]
  | .object [] => describes_emptyObject
  | .object ((key, held) :: rest) => by
    have hquote : '"' ∈ Json.write (.object ((key, held) :: rest)) := by
      rw [Json.write, Json.writeEntries]
      have hmem : '"' ∈ [','].intercalate
          ((Json.writeString key ++ ':' :: Json.write held) :: Json.writeEntries rest) :=
        mem_intercalate_of_mem List.mem_cons_self (by simp [Json.writeString])
      simp [hmem]
    exact absurd (h '"' hquote) (by decide)

theorem describes_writeItems (items : List Value)
    (h : ∀ text ∈ Json.writeItems items, ∀ c ∈ text, isBreak c = false) :
    List.Forall₂ (Describes scope) (Json.writeItems items) (Json.projectItems items) :=
  match items with
  | [] => .nil
  | item :: rest =>
    .cons (describes_write item (h _ List.mem_cons_self))
      (describes_writeItems rest fun text htext => h text (List.mem_cons_of_mem _ htext))

end

end

end ConfigLang
