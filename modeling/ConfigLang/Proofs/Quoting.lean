import ConfigLang.Expr.Token
import ConfigLang.Literal

set_option autoImplicit false

/-! # Quoted texts under every scanner

Each scanner of this library decides for itself where a quoted span ends. What they share is the
state `Scan.Quotes`: a text is hidden from a state if none of its characters stands outside quotes.
Main statements: a quoted text is hidden (`Scan.Quotes.hides_quote`), it is one token
(`Expr.Token.scan_quote`), and it describes itself (`isSimpleLiteral_quote`,
`Literal.ofText_quote`). -/

namespace ConfigLang

open Text

namespace Scan

namespace Quotes

/-! ## Hidden texts -/

/-- Whether no character of a text, read next, stands outside quotes. -/
def hides (s : Quotes) : List Char → Bool
  | [] => true
  | c :: rest => !s.outside c && (s.step c).hides rest

theorem hides_append (s : Quotes) (text rest : List Char) :
    s.hides (text ++ rest) = (s.hides text && (s.scan text).hides rest) := by
  induction text generalizing s with
  | nil => simp [hides]
  | cons c text ih => simp [hides, ih, Bool.and_assoc]

/-- What one character of a string becomes between double quotes neither closes the span nor leaves
    it. -/
theorem escapeChar_in_span {s : Quotes} (hs : s.span? = some '"') (c : Char) :
    s.hides (escapeChar c) = true ∧ (s.scan (escapeChar c)).span? = some '"' := by
  have hescape : (s.step '\\').span? = some '"' := span_step_of_ne hs (by decide)
  have hpair : ∀ d, s.hides ['\\', d] = true ∧ (s.scan ['\\', d]).span? = some '"' := by
    intro d
    refine ⟨?_, span_step_of_escaped hescape (last_step s '\\') d⟩
    simp [hides, outside_of_span hs, outside_of_span hescape]
  unfold escapeChar
  split
  case h_6 hquote _ _ _ =>
    refine ⟨by simp [hides, outside_of_span hs], span_step_of_ne hs ?_⟩
    exact fun heq => hquote heq
  all_goals exact hpair _

theorem escape_in_span {s : Quotes} (hs : s.span? = some '"') (text : List Char) :
    s.hides (escape text) = true ∧ (s.scan (escape text)).span? = some '"' := by
  induction text generalizing s with
  | nil => exact ⟨rfl, hs⟩
  | cons c rest ih =>
    have hsplit : escape (c :: rest) = escapeChar c ++ escape rest := rfl
    obtain ⟨hhead, hspan⟩ := escapeChar_in_span hs c
    obtain ⟨htail, hend⟩ := ih hspan
    rw [hsplit, hides_append, scan_append, hhead, htail]
    exact ⟨rfl, hend⟩

/-- A quoted text is hidden wherever no span is open. -/
theorem hides_quote {s : Quotes} (hs : s.span? = none) (text : List Char) :
    s.hides (quote text) = true := by
  have hopen : (s.step '"').span? = some '"' := span_step_of_opening hs rfl
  obtain ⟨hinside, hspan⟩ := escape_in_span hopen text
  have hfirst : s.outside '"' = false := outside_of_isQuote s rfl
  rw [quote, List.cons_append, hides, hfirst, hides_append, hinside]
  simp [hides, outside_of_span hspan]

end Quotes

/-- In a hidden text nothing outside quotes is found. -/
theorem cutWhen?_of_hides {s : Quotes} {text : List Char} (h : s.hides text = true)
    (p : Char → Bool) : cutWhen? Quotes.step (fun s c => s.outside c && p c) s text = none := by
  induction text generalizing s with
  | nil => rfl
  | cons c rest ih =>
    rw [Quotes.hides, Bool.and_eq_true, Bool.not_eq_true'] at h
    simp [cutWhen?, h.1, ih h.2]

theorem cutUnquoted?_quote (p : Char → Bool) (text : List Char) :
    cutUnquoted? p (quote text) = none :=
  cutWhen?_of_hides (Quotes.hides_quote rfl text) p

end Scan

/-! ## Tokens -/

namespace Expr.Token

open Scan

/-- Inside a span that `c` does not close, the character is gathered. -/
theorem scanFrom_of_open {s : Quotes} {q : Char} (hs : s.span? = some q) {c : Char}
    (hopen : s.closes q c = false) (gathering rest : List Char) :
    scanFrom s gathering (c :: rest) = scanFrom (s.step c) (c :: gathering) rest := by
  rw [scanFrom, hs]
  simp [hopen]

theorem scanFrom_escapeChar {s : Quotes} (hs : s.span? = some '"') (c : Char)
    (gathering rest : List Char) :
    scanFrom s gathering (escapeChar c ++ rest)
      = scanFrom (s.scan (escapeChar c)) ((escapeChar c).reverse ++ gathering) rest := by
  have hescape : (s.step '\\').span? = some '"' := Quotes.span_step_of_ne hs (by decide)
  have hpair : ∀ d, scanFrom s gathering (['\\', d] ++ rest)
      = scanFrom (s.scan ['\\', d]) (['\\', d].reverse ++ gathering) rest := by
    intro d
    have hfirst : s.closes '"' '\\' = false := Quotes.closes_of_ne s (by decide)
    have hsecond : (s.step '\\').closes '"' d = false :=
      Quotes.closes_of_escaped (Quotes.last_step s '\\') '"' d
    rw [List.cons_append, scanFrom_of_open hs hfirst, List.singleton_append,
      scanFrom_of_open hescape hsecond]
    rfl
  unfold escapeChar
  split
  case h_6 hquote _ _ _ =>
    exact scanFrom_of_open hs (Quotes.closes_of_ne s fun heq => hquote heq) gathering rest
  all_goals exact hpair _

theorem scanFrom_escape {s : Quotes} (hs : s.span? = some '"') (text gathering rest : List Char) :
    scanFrom s gathering (escape text ++ rest)
      = scanFrom (s.scan (escape text)) ((escape text).reverse ++ gathering) rest := by
  induction text generalizing s gathering with
  | nil => rfl
  | cons c text ih =>
    have hsplit : escape (c :: text) = escapeChar c ++ escape text := rfl
    have hspan := (Quotes.escapeChar_in_span hs c).2
    rw [hsplit, List.append_assoc, scanFrom_escapeChar hs, ih hspan, Quotes.scan_append]
    simp

theorem gathered_of_trimmed {text : List Char} (hne : text ≠ []) (htrim : trim text = text) :
    gathered text.reverse = [.operand text] := by
  simp [gathered, htrim, hne]

/-- A quoted text is one token, whether or not its last character closes the span. -/
theorem scan_quote (text : List Char) : scan (quote text) = [.operand (quote text)] := by
  have hopen : (({} : Quotes).step '"').span? = some '"' := rfl
  have hinside := (Quotes.escape_in_span hopen text).2
  have hwhole : ('"' :: ((escape text).reverse ++ ['"'])).reverse = quote text := by simp [quote]
  have hstart : scan (quote text)
      = scanFrom ((({} : Quotes).step '"').scan (escape text)) ((escape text).reverse ++ ['"'])
          ['"'] := by
    rw [← scanFrom_escape hopen]
    rfl
  rw [hstart, scanFrom, hinside]
  dsimp only
  split
  · rw [hwhole]
    rfl
  · have hgathered := gathered_of_trimmed (quote_ne_nil text) (trim_quote text)
    rw [scanFrom, ← hgathered, ← hwhole, List.reverse_reverse]

end Expr.Token

/-! ## Literals -/

theorem isSimpleLiteral_quote (text : List Char) : isSimpleLiteral (quote text) = true := by
  have hop : hasOperator (quote text) = false := by
    rw [hasOperator, Scan.cutUnquoted?_quote]
    rfl
  simp [isSimpleLiteral, trim_quote, unquoted?_quote, hop]

/-- A quoted text is read as the text it was made of. -/
theorem Literal.ofText_quote (s : String) :
    Literal.ofText (quote s.toList) = .ok (.value (.string s)) := by
  have hword : wordValue? (quote s.toList) = none := wordValue?_of_head_ne (by decide)
  rw [ofText, trim_quote, ofTrimmed, hword, unquoted?_quote]
  simp [unescape_escape]

end ConfigLang
