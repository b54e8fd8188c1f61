import ConfigLang.Proofs.Quoting
import ConfigLang.Resolve

set_option autoImplicit false

/-! # Texts between quotes

What the stages of resolving make of a text that begins and ends with a double quote, whatever
stands between. It is trimmed, converts to nothing and is no number; it is an expression if an
operator stands outside quotes in it, and else the string between its quotes
(`Scope.resolve_of_between`); a string that was quoted is inert and comes back as it was
(`Scope.resolve_quote`). A quoted text that ends in a backslash leaves its span open
(`Scan.Quotes.span_scan_quote_open`), and a string with a quote in it takes part in no arithmetic
but addition (`Expr.apply_of_quote_mem`). -/

namespace ConfigLang

open Text

namespace Text

/-! ## Texts and their ends -/

theorem mem_dropWhile {p : Char → Bool} {c : Char} (hc : p c = false) {text : List Char}
    (h : c ∈ text) : c ∈ text.dropWhile p := by
  rw [← List.takeWhile_append_dropWhile (p := p) (l := text)] at h
  refine (List.mem_append.mp h).resolve_left fun hmem => ?_
  rw [List.all_eq_true.mp List.all_takeWhile c hmem] at hc
  exact absurd hc (by decide)

theorem mem_trim {c : Char} (hc : isBlank c = false) {text : List Char} (h : c ∈ text) :
    c ∈ trim text := by
  rw [trim, trimEnd, List.mem_reverse]
  exact mem_dropWhile hc (List.mem_reverse.mpr (mem_dropWhile hc h))

theorem trim_of_between {text inner : List Char} (h : between? '"' '"' text = some inner) :
    trim text = text := by
  rw [between?_eq_some h]
  exact trim_enclosed rfl rfl inner

theorem getLast?_escapeChar (c : Char) :
    (escapeChar c).getLast? = some '\\' ↔ c = '\\' := by
  unfold escapeChar
  split
  case h_6 => simp
  all_goals simp

/-- Only a text that ends in a backslash has escapes that end in one. -/
theorem getLast?_escape (text : List Char) :
    (escape text).getLast? = some '\\' ↔ text.getLast? = some '\\' := by
  rcases List.eq_nil_or_concat text with rfl | ⟨front, last, rfl⟩
  · simp [escape]
  · have hne : escapeChar last ≠ [] := by
      unfold escapeChar
      split <;> simp
    have hsplit : escape (front ++ [last]) = escape front ++ escapeChar last := by simp [escape]
    rw [List.concat_eq_append, hsplit, List.getLast?_append, List.getLast?_concat]
    cases hlast : (escapeChar last).getLast? with
    | none => exact absurd (List.getLast?_eq_none_iff.mp hlast) hne
    | some c => rw [Option.some_or, ← hlast, getLast?_escapeChar, Option.some_inj]

theorem not_mem_quote {c : Char} (hc : c ∉ "\\\"ntr".toList) {text : List Char} (h : c ∉ text) :
    c ∉ quote text := by
  have hpair : ∀ pair : List Char, pair.all ("\\\"ntr".toList.contains ·) = true → c ∉ pair := by
    intro pair hall hmem
    exact hc (List.contains_iff_mem.mp (List.all_eq_true.mp hall c hmem))
  have hescape : ∀ d, d ≠ c → c ∉ escapeChar d := by
    intro d hd
    unfold escapeChar
    split
    case h_6 => exact fun hmem => hd (List.mem_singleton.mp hmem).symm
    all_goals exact hpair _ (by decide)
  have hquote : c ≠ '"' := fun heq => hc (by simp [heq])
  simp only [quote, escape, List.cons_append, List.mem_cons, List.mem_append, List.mem_flatMap,
    List.not_mem_nil, or_false, not_or, not_exists, not_and]
  exact ⟨hquote, fun d hd => hescape d (fun heq => h (heq ▸ hd)), hquote⟩

end Text

/-! ## Quoted texts that end in a backslash -/

namespace Scan

namespace Quotes

theorem last_scan (s : Quotes) (text : List Char) :
    (s.scan text).last? = text.getLast?.or s.last? := by
  induction text generalizing s with
  | nil => rfl
  | cons c rest ih =>
    rw [scan_cons, ih, List.getLast?_cons]
    cases rest.getLast? <;> rfl

/-- Before the closing quote of a text the span is open, and a backslash is read last exactly if the
    text ends in one. -/
theorem string_before_close {s : Quotes} (hs : s.span? = none) (text : List Char) :
    ((s.step '"').scan (escape text)).span? = some '"'
      ∧ (((s.step '"').scan (escape text)).last? = some '\\' ↔ text.getLast? = some '\\') := by
  have hopen : (s.step '"').span? = some '"' := span_step_of_opening hs rfl
  refine ⟨(escape_in_span hopen text).2, ?_⟩
  rw [last_scan, last_step, ← getLast?_escape]
  cases (escape text).getLast? <;> simp

/-- Without its quote character a text inside a span neither leaves nor closes it. -/
theorem hides_in_span {s : Quotes} {q : Char} (hs : s.span? = some q) {text : List Char}
    (h : q ∉ text) : s.hides text = true ∧ (s.scan text).span? = some q := by
  induction text generalizing s with
  | nil => exact ⟨rfl, hs⟩
  | cons c rest ih =>
    rw [List.mem_cons, not_or] at h
    obtain ⟨hhides, hspan⟩ := ih (span_step_of_ne hs fun heq => h.1 heq.symm) h.2
    exact ⟨by simp [hides, outside_of_span hs, hhides], hspan⟩

theorem scan_quote_eq (s : Quotes) (text : List Char) :
    s.scan (quote text) = ((s.step '"').scan (escape text)).step '"' := by
  rw [quote, List.cons_append, scan_cons, scan_append]
  rfl

theorem span_step_of_closing {s : Quotes} {q : Char} (hs : s.span? = some q)
    (hlast : s.last? ≠ some '\\') : (s.step q).span? = none :=
  span_step_of_closes hs (by simp [closes, hlast])

theorem span_scan_quote {s : Quotes} (hs : s.span? = none) {text : List Char}
    (h : text.getLast? ≠ some '\\') : (s.scan (quote text)).span? = none := by
  obtain ⟨hspan, hlast⟩ := string_before_close hs text
  rw [scan_quote_eq]
  exact span_step_of_closing hspan (mt hlast.mp h)

/-- Behind a string that ends in a backslash the span goes on. -/
theorem span_scan_quote_open {s : Quotes} (hs : s.span? = none) {text : List Char}
    (h : text.getLast? = some '\\') : (s.scan (quote text)).span? = some '"' := by
  obtain ⟨hspan, hlast⟩ := string_before_close hs text
  rw [scan_quote_eq]
  exact span_step_of_escaped hspan (hlast.mpr h) '"'

end Quotes

/-- Where no character outside quotes is accepted, the scan goes on behind the text. -/
theorem cutWhen?_scan {hit : Quotes → Char → Bool} {s : Quotes} {text : List Char}
    (h : cutWhen? Quotes.step hit s text = none) (rest : List Char) :
    cutWhen? Quotes.step hit s (text ++ rest)
      = (cutWhen? Quotes.step hit (s.scan text) rest).map
          fun (before, after) => (text ++ before, after) :=
  cutWhen?_append h rest

end Scan

namespace Expr.Token

open Scan

theorem scanFrom_in_span {s : Quotes} {q : Char} (hs : s.span? = some q) {text : List Char}
    (h : q ∉ text) (gathering rest : List Char) :
    scanFrom s gathering (text ++ rest)
      = scanFrom (s.scan text) (text.reverse ++ gathering) rest := by
  induction text generalizing s gathering with
  | nil => rfl
  | cons c text ih =>
    rw [List.mem_cons, not_or] at h
    have hc : c ≠ q := fun heq => h.1 heq.symm
    rw [List.cons_append, scanFrom_of_open hs (Quotes.closes_of_ne s hc),
      ih (Quotes.span_step_of_ne hs hc) h.2]
    simp

end Expr.Token

/-! ## Texts that are no numerals -/

/-- A word in lower case is no text with a character that is none of its letters. -/
theorem map_toLower_ne {word : String} {c : Char} (hc : c.toLower ∉ word.toList) {text : List Char}
    (h : c ∈ text) : String.ofList (text.map Char.toLower) ≠ word := by
  rintro rfl
  rw [String.toList_ofList] at hc
  exact hc (List.mem_map_of_mem h)

theorem wordValue?_of_mem {c : Char}
    (hc : ∀ word ∈ ["null", "true", "false"], c.toLower ∉ word.toList) {text : List Char}
    (h : c ∈ text) : wordValue? text = none := by
  simp [wordValue?, map_toLower_ne (hc "null" (by simp)) h, map_toLower_ne (hc "true" (by simp)) h,
    map_toLower_ne (hc "false" (by simp)) h]

namespace Number

/-- The characters of decimal numerals. -/
def isNumeralChar (c : Char) : Bool :=
  c.isDigit || c == '.' || c == '-' || c == '+' || c == 'e' || c == 'E'

section

variable {text : List Char} {c : Char}

theorem mem_splitSign (hminus : c ≠ '-') (hplus : c ≠ '+') (h : c ∈ text) :
    c ∈ (splitSign text).2 := by
  unfold splitSign
  split
  · exact (List.mem_cons.mp h).resolve_left hminus
  · exact (List.mem_cons.mp h).resolve_left hplus
  · exact h

theorem isInteger_of_mem (hc : isNumeralChar c = false) (h : c ∈ text) : isInteger text = false := by
  rw [← Bool.not_eq_true]
  intro hinteger
  rcases isDigit_or_sign_of_mem hinteger h with hdigit | rfl | rfl
  · simp [isNumeralChar, hdigit] at hc
  · exact absurd hc (by decide)
  · exact absurd hc (by decide)

theorem readInteger?_of_mem (hc : isNumeralChar c = false) (h : c ∈ text) :
    readInteger? text = none := by
  have hinteger : isDigits (splitSign text).2 = false := isInteger_of_mem hc h
  rw [readInteger?]
  exact if_neg (Bool.eq_false_iff.mp hinteger)

theorem readInt64?_of_mem (hc : isNumeralChar c = false) (h : c ∈ text) :
    readInt64? text = none := by
  rw [readInt64?, readInteger?_of_mem hc h]
  rfl

theorem readExponent?_of_mem (hc : isNumeralChar c = false) (h : c ∈ text) :
    readExponent? text = none := by
  cases text with
  | nil => exact absurd h List.not_mem_nil
  | cons first rest =>
    rw [readExponent?]
    split
    next hfirst =>
      have hrest : c ∈ rest := by
        refine (List.mem_cons.mp h).resolve_left ?_
        rintro rfl
        simp only [isNumeralChar, Bool.or_eq_false_iff] at hc
        simp [hc] at hfirst
      exact readInteger?_of_mem hc hrest
    next => rfl

theorem mem_splitFraction (hpoint : c ≠ '.') (hdigit : c.isDigit = false) (h : c ∈ text) :
    c ∈ (splitFraction text).2 := by
  unfold splitFraction
  split
  · exact Text.mem_dropWhile hdigit ((List.mem_cons.mp h).resolve_left hpoint)
  · exact h

theorem readDecimal?_of_mem (hc : isNumeralChar c = false) (h : c ∈ text) :
    readDecimal? text = none := by
  have hdigit : c.isDigit = false := by
    simp only [isNumeralChar, Bool.or_eq_false_iff] at hc
    exact hc.1.1.1.1.1
  have hpoint : c ≠ '.' := by
    rintro rfl
    exact absurd hc (by decide)
  have hrest : c ∈ (splitFraction (text.dropWhile Char.isDigit)).2 :=
    mem_splitFraction hpoint hdigit (Text.mem_dropWhile hdigit h)
  unfold readDecimal?
  simp [readExponent?_of_mem hc hrest]

theorem readWord?_of_mem (hc : ∀ word ∈ ["inf", "infinity", "nan"], c.toLower ∉ word.toList)
    (h : c ∈ text) (negative : Bool) : readWord? negative text = none := by
  simp [readWord?, map_toLower_ne (hc "inf" (by simp)) h,
    map_toLower_ne (hc "infinity" (by simp)) h, map_toLower_ne (hc "nan" (by simp)) h]

/-- A text with a character that no decimal numeral has, and one that no word for a number has. -/
theorem readFloat?_of_mem {d : Char} (hc : isNumeralChar c = false) (h : c ∈ text)
    (hd : ∀ word ∈ ["inf", "infinity", "nan"], d.toLower ∉ word.toList) (hminus : d ≠ '-')
    (hplus : d ≠ '+') (hmem : d ∈ text) : readFloat? text = none := by
  have hbody : c ∈ (splitSign text).2 := by
    refine mem_splitSign ?_ ?_ h
    · rintro rfl
      exact absurd hc (by decide)
    · rintro rfl
      exact absurd hc (by decide)
  unfold readFloat?
  simp [readDecimal?_of_mem hc hbody, readWord?_of_mem hd (mem_splitSign hminus hplus hmem)]

theorem readFloat?_of_quote_mem (h : '"' ∈ text) : readFloat? text = none :=
  readFloat?_of_mem (by decide) h (by decide) (by decide) (by decide) h

end

end Number

namespace Expr

theorem ofValue?_of_quote_mem {s : String} (h : '"' ∈ s.toList) :
    Numeric.ofValue? (.string s) = none := by
  have htrim : '"' ∈ trim s.toList := mem_trim rfl h
  simp [Numeric.ofValue?, Numeric.ofText?, Number.readFloat?_of_quote_mem htrim,
    Number.readInt64?_of_mem (c := '"') rfl htrim]

/-- Nothing but addition applies to a string with a quote, and that appends. -/
theorem apply_of_quote_mem {op : Operator} {s : String} (h : '"' ∈ s.toList) {rhs w : Value}
    (happly : apply op (.string s) rhs = .ok w) :
    op = .add ∧ w = .string (s ++ String.ofList rhs.text) := by
  rw [apply] at happly
  split at happly
  next hop =>
    refine ⟨hop.1, ?_⟩
    rw [← Except.ok.inj happly]
    simp [Value.text, String.ofList_append]
  next =>
    simp only [compute, Numeric.ofValue, ofValue?_of_quote_mem h, bind, Except.bind] at happly
    exact absurd happly (by simp)

end Expr

/-! ## Texts between quotes -/

section

variable {text inner : List Char}

/-- Between quotes only an operator outside quotes keeps a text from being a literal. -/
theorem isSimpleLiteral_of_between (h : between? '"' '"' text = some inner) :
    isSimpleLiteral text = !hasOperator text := by
  have htrim := trim_of_between h
  obtain rfl := between?_eq_some h
  have hbracketed : isBracketed ('"' :: (inner ++ ['"'])) = false := by
    rw [isBracketed, between?_of_head_ne (by simp)]
    rfl
  have hbraced : isBraced ('"' :: (inner ++ ['"'])) = false := by
    rw [isBraced, between?_of_head_ne (by simp)]
    rfl
  have hword : wordValue? ('"' :: (inner ++ ['"'])) = none := wordValue?_of_head_ne (by decide)
  have hfloat :=
    Number.readFloat?_of_quote_mem (List.mem_cons_self (a := '"') (l := inner ++ ['"']))
  rw [isSimpleLiteral, htrim, hbracketed, hbraced, hword, hfloat]
  simp [unquoted?, h]

theorem ofText_of_between (h : between? '"' '"' text = some inner) :
    Literal.ofText text = .ok (.value (.string (String.ofList (unescape inner)))) := by
  have hword : wordValue? text = none := by
    rw [between?_eq_some h]
    exact wordValue?_of_head_ne (by decide)
  simp [Literal.ofText, trim_of_between h, Literal.ofTrimmed, hword, unquoted?, h]

namespace Scope

/-- A text converts to nothing if it ends in a character that no conversion has in its name. -/
theorem conversion?_concat {c : Char}
    (hc : ∀ name ∈ ["int", "float", "string", "bool"], c ∉ name.toList) (front : List Char) :
    conversion? (front ++ [c]) = none := by
  rw [conversion?, Option.bind_eq_none_iff]
  rintro ⟨base, suffix⟩ hcut
  have hlast := congrArg List.getLast? (cutLast?_eq_some hcut).1
  rw [List.getLast?_concat, List.getLast?_append, List.getLast?_cons, Option.some_or,
    Option.some_inj] at hlast
  cases hback : suffix.getLast? with
  | none =>
    rw [List.getLast?_eq_none_iff.mp hback]
    rfl
  | some d =>
    rw [hback, Option.getD_some] at hlast
    have hmem : c ∈ suffix := hlast ▸ List.mem_of_mem_getLast? hback
    have hname : ∀ name ∈ ["int", "float", "string", "bool"], String.ofList suffix ≠ name := by
      rintro name hname rfl
      exact hc _ hname (by simpa using hmem)
    simp [Target.ofName?, hname "int" (by simp), hname "float" (by simp), hname "string" (by simp),
      hname "bool" (by simp)]

theorem conversion?_of_between (h : between? '"' '"' text = some inner) :
    conversion? text = none := by
  rw [between?_eq_some h, ← List.cons_append]
  exact conversion?_concat (by decide) _

/-- A text between quotes is an expression if an operator stands outside quotes in it, and else the
    string that it quotes. -/
theorem resolve_of_between (scope : Scope) (h : between? '"' '"' text = some inner) :
    scope.resolve text
      = if hasOperator text then scope.evaluateExpression text
        else .ok (.string (String.ofList (unescape inner))) := by
  have htext := between?_eq_some h
  have hne : text.isEmpty = false := by simp [htext]
  have hexpand : scope.env.expand? text = none := by
    apply Environment.expand?_of_head_ne
    rw [htext]
    intro c hc
    obtain rfl := Option.some.inj hc
    decide
  have hsimple := isSimpleLiteral_of_between h
  rw [resolve, resolveBy_eq, trim_of_between h, hne, hexpand, hsimple, conversion?_of_between h]
  cases hoperator : hasOperator text with
  | true => simp
  | false =>
    rw [hoperator] at hsimple
    rw [isReference_of_simple hsimple, ofText_of_between h]
    simp only [Bool.false_eq_true, if_false, Bool.not_false, Bool.not_true, Bool.and_false]
    rfl

/-- A quoted string describes itself and shows no character outside quotes to any search, whatever
    it holds, and it resolves to the string in every scope. -/
theorem resolve_quote (scope : Scope) (s : String) :
    isSimpleLiteral (quote s.toList) = true
      ∧ (∀ p, Scan.cutUnquoted? p (quote s.toList) = none)
      ∧ scope.decodeLiteral (quote s.toList) = .ok (.string s)
      ∧ scope.resolve (quote s.toList) = .ok (.string s) := by
  have hbetween : between? '"' '"' (quote s.toList) = some (escape s.toList) :=
    between?_append_singleton _ _ _
  have hinside : String.ofList (unescape (escape s.toList)) = s := by
    rw [unescape_escape, String.ofList_toList]
  have hnone : ∀ p, Scan.cutUnquoted? p (quote s.toList) = none :=
    fun p => Scan.cutUnquoted?_quote p s.toList
  have hoperator : hasOperator (quote s.toList) = false := by
    rw [hasOperator, hnone]
    rfl
  refine ⟨?_, hnone, ?_, ?_⟩
  · rw [isSimpleLiteral_of_between hbetween, hoperator]
    rfl
  · rw [decodeLiteral, ofText_of_between hbetween, hinside]
    rfl
  · rw [scope.resolve_of_between hbetween, hoperator, hinside]
    rfl

/-- An expression without groups. -/
theorem evaluateExpression_of_no_group (scope : Scope) (hopen : '(' ∉ text) :
    scope.evaluateExpression text
      = if (Scan.cutUnquoted? (· == ')') text).isSome then
          .error (.malformed (.parentheses (String.ofList text)))
        else Expr.evaluateFlat scope.resolveOperand text := by
  rw [evaluateExpression, Expr.evaluate, Expr.replaceGroups_of_not_mem hopen]
  rfl

end Scope

end

end ConfigLang
