import ConfigLang.Text.Quoted

set_option autoImplicit false

/-! # Which characters stand outside quotes

A quote character opens a span, and the next equal one closes it unless a backslash stands directly
before it. The state of a scan is the quote character of the open span together with the last
character read; every scanner of this library carries it from character to character. Outside quotes
only the quote characters change what a scan does next. -/

namespace ConfigLang.Scan

/-- What a scan knows after the characters it has read. -/
structure Quotes where
  /-- The quote character of the open span. -/
  span? : Option Char := none
  /-- The character read last. -/
  last? : Option Char := none
  deriving DecidableEq, Repr

namespace Quotes

/-- Whether `c`, read next, closes the span that `q` opened. -/
def closes (s : Quotes) (q c : Char) : Bool :=
  c == q && s.last? != some '\\'

/-- Read one character. -/
def step (s : Quotes) (c : Char) : Quotes where
  span? :=
    match s.span? with
    | none => if Text.isQuote c then some c else none
    | some q => if s.closes q c then none else some q
  last? := some c

/-- Whether `c`, read next, stands outside quotes; the quote characters do not. -/
def outside (s : Quotes) (c : Char) : Bool :=
  s.span?.isNone && !Text.isQuote c

/-- For each character, whether it stands outside quotes and whether a span is open behind it. -/
def trace (s : Quotes) : List Char → List (Bool × Bool)
  | [] => []
  | c :: rest => (s.outside c, (s.step c).span?.isSome) :: trace (s.step c) rest

/-- Read a text. -/
def scan (s : Quotes) (text : List Char) : Quotes :=
  text.foldl step s

@[simp]
theorem scan_nil (s : Quotes) : s.scan [] = s := rfl

@[simp]
theorem scan_cons (s : Quotes) (c : Char) (rest : List Char) :
    s.scan (c :: rest) = (s.step c).scan rest := rfl

@[simp]
theorem scan_append (s : Quotes) (text rest : List Char) :
    s.scan (text ++ rest) = (s.scan text).scan rest := by
  simp [scan]

/-! ## Outside and inside a span -/

theorem span_step_of_not_quote {s : Quotes} {c : Char} (hs : s.span? = none)
    (hc : Text.isQuote c = false) : (s.step c).span? = none := by
  simp [step, hs, hc]

theorem span_scan_of_not_quote {s : Quotes} {text : List Char} (hs : s.span? = none)
    (h : ∀ c ∈ text, Text.isQuote c = false) : (s.scan text).span? = none := by
  induction text generalizing s with
  | nil => exact hs
  | cons c rest ih =>
    have hstep := span_step_of_not_quote hs (h c List.mem_cons_self)
    exact ih hstep fun d hd => h d (List.mem_cons_of_mem _ hd)

theorem outside_of_span {s : Quotes} {q : Char} (hs : s.span? = some q) (c : Char) :
    s.outside c = false := by
  simp [outside, hs]

theorem outside_of_not_quote {s : Quotes} {c : Char} (hs : s.span? = none)
    (hc : Text.isQuote c = false) : s.outside c = true := by
  simp [outside, hs, hc]

theorem outside_of_isQuote {c : Char} (s : Quotes) (hc : Text.isQuote c = true) :
    s.outside c = false := by
  simp [outside, hc]

theorem span_step_of_opening {s : Quotes} {c : Char} (hs : s.span? = none)
    (hc : Text.isQuote c = true) : (s.step c).span? = some c := by
  simp [step, hs, hc]

theorem closes_of_ne {q c : Char} (s : Quotes) (hc : c ≠ q) : s.closes q c = false := by
  simp [closes, hc]

theorem closes_of_escaped {s : Quotes} (hlast : s.last? = some '\\') (q c : Char) :
    s.closes q c = false := by
  simp [closes, hlast]

/-- What closes a span leaves none open. -/
theorem span_step_of_closes {s : Quotes} {q c : Char} (hs : s.span? = some q)
    (hc : s.closes q c = true) : (s.step c).span? = none := by
  simp [step, hs, hc]

theorem span_step_of_not_closes {s : Quotes} {q c : Char} (hs : s.span? = some q)
    (hc : s.closes q c = false) : (s.step c).span? = some q := by
  simp [step, hs, hc]

theorem span_step_of_ne {s : Quotes} {q c : Char} (hs : s.span? = some q) (hc : c ≠ q) :
    (s.step c).span? = some q :=
  span_step_of_not_closes hs (closes_of_ne s hc)

/-- A character behind a backslash closes no span. -/
theorem span_step_of_escaped {s : Quotes} {q : Char} (hs : s.span? = some q)
    (hlast : s.last? = some '\\') (c : Char) : (s.step c).span? = some q :=
  span_step_of_not_closes hs (closes_of_escaped hlast q c)

/-- Only quote characters open spans. -/
theorem isQuote_of_span_step {s : Quotes} (hs : ∀ q ∈ s.span?, Text.isQuote q = true) (c : Char) :
    ∀ q ∈ (s.step c).span?, Text.isQuote q = true := by
  intro q hq
  cases hspan : s.span? with
  | none =>
    simp only [step, hspan, Option.mem_def, Option.ite_none_right_eq_some,
      Option.some.injEq] at hq
    exact hq.2 ▸ hq.1
  | some p =>
    simp only [step, hspan, Option.mem_def, Option.ite_none_left_eq_some,
      Option.some.injEq] at hq
    exact hq.2 ▸ hs p hspan

theorem isQuote_of_span_scan {s : Quotes} (hs : ∀ q ∈ s.span?, Text.isQuote q = true)
    (text : List Char) : ∀ q ∈ (s.scan text).span?, Text.isQuote q = true := by
  induction text generalizing s with
  | nil => exact hs
  | cons c rest ih => exact ih (isQuote_of_span_step hs c)

theorem last_step (s : Quotes) (c : Char) : (s.step c).last? = some c := rfl

/-- Outside quotes a scan knows nothing of the characters before. -/
theorem step_eq_of_span_none {s t : Quotes} (hs : s.span? = none) (ht : t.span? = none)
    (c : Char) : s.step c = t.step c := by
  simp [step, hs, ht]

end Quotes

end ConfigLang.Scan
