import ConfigLang.Text.Blank
import ConfigLang.Text.Split

set_option autoImplicit false

/-! # Quoted text

A quoted text stands between two equal quote characters. Writing always uses double quotes and
escapes five characters; reading knows one escape more, and leaves a backslash that starts no escape
as it is. Main statements: reading back what was written gives the text (`unescape_escape`,
`unquoted?_quote`). -/

namespace ConfigLang.Text

/-- The two quote characters. -/
def isQuote (c : Char) : Bool :=
  c == '"' || c == '\''

theorem isBlank_of_isQuote {c : Char} (h : isQuote c = true) : isBlank c = false := by
  simp only [isQuote, Bool.or_eq_true, beq_iff_eq] at h
  rcases h with rfl | rfl <;> rfl

/-! ## Writing -/

def escapeChar : Char → List Char
  | '\\' => ['\\', '\\']
  | '"' => ['\\', '"']
  | '\n' => ['\\', 'n']
  | '\t' => ['\\', 't']
  | '\r' => ['\\', 'r']
  | c => [c]

def escape (text : List Char) : List Char :=
  text.flatMap escapeChar

/-- The text between double quotes, with its escapes. -/
def quote (text : List Char) : List Char :=
  '"' :: escape text ++ ['"']

theorem quote_ne_nil (text : List Char) : quote text ≠ [] := by
  simp [quote]

theorem trim_quote (text : List Char) : trim (quote text) = quote text :=
  trim_enclosed (by decide) (by decide) (escape text)

theorem newline_not_mem_quote (text : List Char) : '\n' ∉ quote text := by
  have hescape : ∀ c, '\n' ∉ escapeChar c := by
    intro c
    unfold escapeChar
    split
    case h_6 hnewline _ _ => exact fun hmem => hnewline (List.mem_singleton.mp hmem).symm
    all_goals decide
  simp only [quote, escape, List.cons_append, List.mem_cons, List.mem_append, List.mem_flatMap,
    List.not_mem_nil, or_false, not_or, not_exists, not_and]
  exact ⟨by decide, fun c _ => hescape c, by decide⟩

/-! ## Reading -/

/-- The character that a backslash and `c` stand for, if they are an escape. -/
def escaped? : Char → Option Char
  | 'n' => some '\n'
  | 't' => some '\t'
  | 'r' => some '\r'
  | '\\' => some '\\'
  | '"' => some '"'
  | '\'' => some '\''
  | _ => none

/-- Replace every escape from left to right; a backslash before anything else stands for itself. -/
def unescape : List Char → List Char
  | [] => []
  | [c] => [c]
  | c :: d :: rest =>
    if c = '\\' then
      match escaped? d with
      | some e => e :: unescape rest
      | none => c :: unescape (d :: rest)
    else c :: unescape (d :: rest)

/-- What stands between two equal quote characters, if these are the two ends of the text. -/
def unquoted? (text : List Char) : Option (List Char) :=
  match between? '"' '"' text with
  | some inner => some inner
  | none => between? '\'' '\'' text

/-! ## Reading back -/

theorem unescape_cons_of_ne {c : Char} (hc : c ≠ '\\') (text : List Char) :
    unescape (c :: text) = c :: unescape text := by
  cases text with
  | nil => simp [unescape]
  | cons d rest => simp [unescape, hc]

theorem unescape_escapeChar_append (c : Char) (text : List Char) :
    unescape (escapeChar c ++ text) = c :: unescape text := by
  unfold escapeChar
  split
  case h_6 h _ _ _ _ => exact unescape_cons_of_ne h text
  all_goals simp [unescape, escaped?]

theorem unescape_escape_append (text rest : List Char) :
    unescape (escape text ++ rest) = text ++ unescape rest := by
  induction text with
  | nil => rfl
  | cons c text ih =>
    have hsplit : escape (c :: text) = escapeChar c ++ escape text := rfl
    rw [hsplit, List.append_assoc, unescape_escapeChar_append, ih, List.cons_append]

theorem unescape_escape (text : List Char) : unescape (escape text) = text := by
  have happend := unescape_escape_append text []
  rw [List.append_nil, unescape, List.append_nil] at happend
  exact happend

theorem unquoted?_quote (text : List Char) : unquoted? (quote text) = some (escape text) := by
  simp [unquoted?, quote, between?_append_singleton]

end ConfigLang.Text
