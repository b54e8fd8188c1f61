import ConfigLang.Json.Numeral
import ConfigLang.Text.Split

set_option autoImplicit false

/-! # JSON tokens

A JSON text as its punctuation, strings and other scalars. Blanks between tokens are the space and
three control characters only. A run of letters, digits, signs and points is one token or none: no
two scalars may stand side by side in JSON. -/

namespace ConfigLang.Json

inductive Token where
  | openBracket
  | closeBracket
  | openBrace
  | closeBrace
  | comma
  | colon
  | string (s : List Char)
  | scalar (v : Value)

/-! ## Strings -/

/-- The code unit that four hexadecimal digits stand for, and what follows them. -/
def readUnit? (text : List Char) : Option (Nat × List Char) :=
  let digits := text.take 4
  if digits.length = 4 ∧ digits.all (fun c => c.isDigit || ('a' ≤ c && c ≤ 'f') || ('A' ≤ c && c ≤ 'F'))
  then
    let value (c : Char) : Nat :=
      if c.isDigit then c.toNat - '0'.toNat else c.toLower.toNat - 'a'.toNat + 10
    some (digits.foldl (fun n c => 16 * n + value c) 0, text.drop 4)
  else none

/-- The character that the units behind a `u` stand for: one unit, or two surrogates that belong
    together. -/
def readUnits? (text : List Char) : Option (Char × List Char) :=
  match readUnit? text with
  | none => none
  | some (high, rest) =>
    if high < 0xD800 ∨ 0xDFFF < high then some (Char.ofNat high, rest)
    else if 0xDC00 ≤ high then none
    else
      match (Text.behind? ['\\', 'u'] rest).bind readUnit? with
      | none => none
      | some (low, rest) =>
        if 0xDC00 ≤ low ∧ low ≤ 0xDFFF then
          some (Char.ofNat (0x10000 + 0x400 * (high - 0xD800) + (low - 0xDC00)), rest)
        else none

/-- The character that an escape stands for, behind its backslash. -/
def readEscape? : List Char → Option (Char × List Char)
  | '"' :: rest => some ('"', rest)
  | '\\' :: rest => some ('\\', rest)
  | '/' :: rest => some ('/', rest)
  | 'b' :: rest => some ('\x08', rest)
  | 'f' :: rest => some ('\x0c', rest)
  | 'n' :: rest => some ('\n', rest)
  | 'r' :: rest => some ('\r', rest)
  | 't' :: rest => some ('\t', rest)
  | 'u' :: rest => readUnits? rest
  | _ => none

theorem length_readUnit? {text rest : List Char} {n : Nat} (h : readUnit? text = some (n, rest)) :
    rest.length ≤ text.length := by
  unfold readUnit? at h
  simp only [Option.ite_none_right_eq_some, Option.some.injEq, Prod.mk.injEq] at h
  rw [← h.2.2]
  simp

theorem length_readUnits? {text rest : List Char} {c : Char} (h : readUnits? text = some (c, rest)) :
    rest.length ≤ text.length := by
  unfold readUnits? at h
  split at h
  · simp at h
  next high tail hhigh =>
    have htail := length_readUnit? hhigh
    split at h
    · simp only [Option.some.injEq, Prod.mk.injEq] at h
      rw [← h.2]
      exact htail
    · split at h
      · simp at h
      · split at h
        · simp at h
        next low last hlow =>
          split at h
          · simp only [Option.some.injEq, Prod.mk.injEq] at h
            obtain ⟨behind, hbehind, hunit⟩ := Option.bind_eq_some_iff.mp hlow
            have hlast := length_readUnit? hunit
            have hdrop : behind.length ≤ tail.length := by
              unfold Text.behind? at hbehind
              simp only [Option.ite_none_right_eq_some, Option.some.injEq] at hbehind
              rw [← hbehind.2]
              simp
            rw [← h.2]
            omega
          · simp at h

theorem length_readEscape? {text rest : List Char} {c : Char}
    (h : readEscape? text = some (c, rest)) : rest.length < text.length := by
  unfold readEscape? at h
  split at h
  case h_9 tail =>
    have := length_readUnits? h
    simp only [List.length_cons]
    omega
  case h_10 => simp at h
  all_goals
    simp only [Option.some.injEq, Prod.mk.injEq] at h
    rw [← h.2]
    simp

/-- The string behind its opening quote, and what follows its closing quote. -/
def readString? (text : List Char) : Option (List Char × List Char) :=
  match text with
  | [] => none
  | c :: rest =>
    if c = '"' then some ([], rest)
    else if c = '\\' then
      match _h : readEscape? rest with
      | none => none
      | some (d, after) => (readString? after).map fun (s, last) => (d :: s, last)
    else if c.toNat < 0x20 then none
    else (readString? rest).map fun (s, last) => (c :: s, last)
termination_by text.length
decreasing_by
  · have := length_readEscape? _h
    simp only [List.length_cons]
    omega
  · simp

theorem length_readString? {text s rest : List Char} (h : readString? text = some (s, rest)) :
    rest.length < text.length := by
  fun_induction readString? text generalizing s rest with
  | case1 => simp at h
  | case2 tail =>
    simp only [Option.some.injEq, Prod.mk.injEq] at h
    rw [← h.2]
    simp
  | case3 => simp at h
  | case4 tail d after hescape _ ih =>
    simp only [Option.map_eq_some_iff, Prod.mk.injEq, Prod.exists] at h
    obtain ⟨s', last, hread, _, rfl⟩ := h
    have := length_readEscape? hescape
    have := ih hread
    simp only [List.length_cons]
    omega
  | case5 => simp at h
  | case6 c tail _ _ _ ih =>
    simp only [Option.map_eq_some_iff, Prod.mk.injEq, Prod.exists] at h
    obtain ⟨s', last, hread, _, rfl⟩ := h
    have := ih hread
    simp only [List.length_cons]
    omega

/-! ## Other scalars -/

/-- The characters of scalars that are not strings. -/
def isScalarChar (c : Char) : Bool :=
  c.isAlphanum || c == '+' || c == '-' || c == '.'

/-- The value of a scalar that is not a string. -/
def readScalar? (word : List Char) : Option Value :=
  if word = "null".toList then some .null
  else if word = "true".toList then some (.bool true)
  else if word = "false".toList then some (.bool false)
  else readNumber? word

/-! ## All tokens -/

/-- The blanks of JSON. -/
def isSpace (c : Char) : Bool :=
  c == ' ' || c == '\n' || c == '\t' || c == '\r'

def punctuation? : Char → Option Token
  | '[' => some .openBracket
  | ']' => some .closeBracket
  | '\x7b' => some .openBrace
  | '\x7d' => some .closeBrace
  | ',' => some .comma
  | ':' => some .colon
  | _ => none

/-- The tokens of a JSON text. -/
def tokens? (text : List Char) : Option (List Token) :=
  match text with
  | [] => some []
  | c :: rest =>
    if isSpace c then tokens? rest
    else
      match punctuation? c with
      | some token => (tokens? rest).map (token :: ·)
      | none =>
        if c = '"' then
          match _h : readString? rest with
          | none => none
          | some (s, after) => (tokens? after).map (.string s :: ·)
        else if isScalarChar c then
          match readScalar? (c :: rest.takeWhile isScalarChar) with
          | none => none
          | some v => (tokens? (rest.dropWhile isScalarChar)).map (.scalar v :: ·)
        else none
termination_by text.length
decreasing_by
  · simp
  · simp
  · have := length_readString? _h
    simp only [List.length_cons]
    omega
  · have := (List.dropWhile_sublist (p := isScalarChar) (l := rest)).length_le
    simp only [List.length_cons]
    omega

end ConfigLang.Json
