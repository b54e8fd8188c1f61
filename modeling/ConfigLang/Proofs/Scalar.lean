import ConfigLang.Proofs.Quoting
import ConfigLang.Resolve

set_option autoImplicit false

/-! # Scalars and their literals

A scalar is null, a boolean, an integer or a string; its literal is the text that a document holds
for it. Main statement: wherever a literal stands, it resolves to its scalar
(`Scalar.resolveBy_literal`). -/

namespace ConfigLang

open Text

/-! ## Numerals -/

/-- Whether a character begins no numeral: neither a digit nor a sign. -/
def isNoLead (c : Char) : Bool :=
  !(c.isDigit || c == '-' || c == '+')

/-- A text that begins like a numeral and is one is read as its number. -/
theorem Literal.ofText_of_numeral {text : List Char} {v : Value} (htrim : trim text = text)
    (hlead : ∀ c ∈ text.head?, isNoLead c = false) (hvalue : numberValue? text = some v) :
    Literal.ofText text = .ok (.value v) := by
  have hne : ∀ d, isNoLead d = true → ∀ c ∈ text.head?, c ≠ d :=
    fun d hd c hc => (ne_of_class hd (hlead c hc)).symm
  have hword : wordValue? text = none := by
    cases text with
    | nil => rfl
    | cons c rest =>
      apply wordValue?_of_head_ne
      have hlower : c.toLower = c := by
        have hc := hlead c rfl
        simp only [isNoLead, Bool.not_eq_false', Bool.or_eq_true, beq_iff_eq] at hc
        rcases hc with (hdigit | rfl) | rfl
        · exact Number.toLower_of_isDigit hdigit
        · rfl
        · rfl
      rw [hlower]
      simp only [List.mem_cons, List.not_mem_nil, or_false, not_or]
      exact ⟨hne 'n' rfl c rfl, hne 't' rfl c rfl, hne 'f' rfl c rfl⟩
  have hquoted : unquoted? text = none := by
    rw [unquoted?, between?_of_head_ne (hne _ rfl), between?_of_head_ne (hne _ rfl)]
  have hbracketed : isBracketed text = false := by
    rw [isBracketed, between?_of_head_ne (hne _ rfl)]
    rfl
  have hbraced : isBraced text = false := by
    rw [isBraced, between?_of_head_ne (hne _ rfl)]
    rfl
  rw [ofText, htrim, ofTrimmed, hword, hquoted]
  simp [hbracketed, hbraced, hvalue]

/-! ## Integer numerals -/

section

variable {text : List Char}

/-- An integer numeral holds no character that begins none. -/
theorem isNoLead_of_mem_integer (h : Number.isInteger text = true) {c : Char} (hc : c ∈ text) :
    isNoLead c = false := by
  rcases Number.isDigit_or_sign_of_mem h hc with hdigit | rfl | rfl
  · simp [isNoLead, hdigit]
  · rfl
  · rfl

theorem ne_of_mem_integer (h : Number.isInteger text = true) {c d : Char} (hc : c ∈ text)
    (hd : isNoLead d = true) : c ≠ d :=
  (ne_of_class hd (isNoLead_of_mem_integer h hc)).symm

theorem isBlank_of_mem_integer (h : Number.isInteger text = true) {c : Char} (hc : c ∈ text) :
    isBlank c = false := by
  rcases Number.isDigit_or_sign_of_mem h hc with hdigit | rfl | rfl
  · exact isBlank_of_isAlphanum (by simp [Char.isAlphanum, hdigit])
  · rfl
  · rfl

theorem trim_integer (h : Number.isInteger text = true) : trim text = text :=
  trim_of_no_blank fun _ hc => isBlank_of_mem_integer h hc

theorem isSimpleLiteral_integer (h : Number.isInteger text = true) :
    isSimpleLiteral text = true := by
  simp [isSimpleLiteral, trim_integer h, Number.isSome_readFloat?_of_isInteger h]

/-- An integer numeral has neither a point nor an exponent. -/
theorem any_mark_of_isInteger (h : Number.isInteger text = true) :
    text.any (fun c => c == '.' || c == 'e' || c == 'E') = false := by
  rw [List.any_eq_false]
  intro c hc
  have hpoint := ne_of_mem_integer (d := '.') h hc rfl
  have hlower := ne_of_mem_integer (d := 'e') h hc rfl
  have hupper := ne_of_mem_integer (d := 'E') h hc rfl
  simp [hpoint, hlower, hupper]

/-- An integer numeral in the range of 64 bits is read as the integer. -/
theorem Literal.ofText_integer (h : Number.isInteger text = true) {n : Int64}
    (hread : Number.readInt64? text = some n) : Literal.ofText text = .ok (.value (.int n)) := by
  apply ofText_of_numeral (trim_integer h)
    fun c hc => isNoLead_of_mem_integer h (List.mem_of_mem_head? hc)
  simp [numberValue?, any_mark_of_isInteger h, hread]

end

/-! ## Scalars -/

/-- A value without items and entries, floats aside. -/
inductive Scalar where
  | null
  | bool (b : Bool)
  | int (n : Int64)
  | string (s : String)
  deriving DecidableEq, Repr

namespace Scalar

def value : Scalar → Value
  | .null => .null
  | .bool b => .bool b
  | .int n => .int n
  | .string s => .string s

/-- The text that a document holds for a scalar. -/
def literal : Scalar → List Char
  | .null => "null".toList
  | .bool b => Json.writeBool b
  | .int n => Number.integerText n.toInt
  | .string s => quote s.toList

/-- The literals other than numerals and quoted texts. -/
def isWord : Scalar → Bool
  | .null => true
  | .bool _ => true
  | _ => false

theorem isLower_of_mem_word {x : Scalar} (h : x.isWord = true) :
    ∀ c ∈ x.literal, c.isLower = true := by
  cases x with
  | null => exact List.all_eq_true.mp rfl
  | bool b => cases b <;> exact List.all_eq_true.mp rfl
  | int n => exact absurd h Bool.false_ne_true
  | string s => exact absurd h Bool.false_ne_true

theorem isBlank_of_mem_word {x : Scalar} (h : x.isWord = true) {c : Char} (hc : c ∈ x.literal) :
    isBlank c = false :=
  isBlank_of_isAlphanum (by
    delta Char.isAlphanum Char.isAlpha
    simp [isLower_of_mem_word h c hc])

theorem literal_ne_nil (x : Scalar) : x.literal ≠ [] := by
  cases x with
  | null => decide
  | bool b => cases b <;> decide
  | int n => exact Number.integerText_ne_nil _
  | string s => exact quote_ne_nil _

theorem trim_literal (x : Scalar) : trim x.literal = x.literal := by
  cases x with
  | null => rfl
  | bool b => cases b <;> rfl
  | int n => exact trim_integer (Number.isInteger_integerText _)
  | string s => exact trim_quote _

theorem isBlank_of_getLast_literal (x : Scalar) :
    ∀ c ∈ x.literal.getLast?, isBlank c = false := by
  cases x with
  | null => exact fun _ hc => isBlank_of_mem_word rfl (List.mem_of_mem_getLast? hc)
  | bool b => exact fun _ hc => isBlank_of_mem_word rfl (List.mem_of_mem_getLast? hc)
  | int n =>
    have hinteger := Number.isInteger_integerText n.toInt
    exact fun _ hc => isBlank_of_mem_integer hinteger (List.mem_of_mem_getLast? hc)
  | string s =>
    intro c hc
    simp only [literal, quote, List.getLast?_concat, Option.mem_def, Option.some.injEq] at hc
    rw [← hc]
    decide

theorem newline_not_mem_literal (x : Scalar) : '\n' ∉ x.literal := by
  cases x with
  | null => decide
  | bool b => cases b <;> decide
  | int n =>
    exact fun hmem => ne_of_mem_integer (Number.isInteger_integerText _) hmem rfl rfl
  | string s => exact newline_not_mem_quote _

/-- In a literal no slash stands outside quotes. -/
theorem cutWhen?_slash_literal {s : Scan.Quotes} (hs : s.span? = none) (x : Scalar) :
    Scan.cutWhen? Scan.Quotes.step (fun s c => s.outside c && c == '/') s x.literal = none := by
  cases x with
  | null =>
    apply Scan.cutWhen?_eq_none_of_forall
    intro c hc
    simpa using ne_of_class (d := '/') (isLower_of_mem_word rfl c hc) rfl
  | bool b =>
    apply Scan.cutWhen?_eq_none_of_forall
    intro c hc
    simpa using ne_of_class (d := '/') (isLower_of_mem_word rfl c hc) rfl
  | int n =>
    apply Scan.cutWhen?_eq_none_of_forall
    intro c hc
    simpa using ne_of_mem_integer (d := '/') (Number.isInteger_integerText _) hc rfl
  | string str => exact Scan.cutWhen?_of_hides (Scan.Quotes.hides_quote hs _) _

/-- How no literal begins. -/
theorem head_literal_ne {d : Char} (h : d = '$' ∨ d = '[' ∨ d = '\x7b') (x : Scalar) :
    ∀ c ∈ x.literal.head?, c ≠ d := by
  have hlower : d.isLower = false := by rcases h with rfl | rfl | rfl <;> rfl
  cases x with
  | null =>
    exact fun c hc => ne_of_class (isLower_of_mem_word rfl c (List.mem_of_mem_head? hc)) hlower
  | bool b =>
    exact fun c hc => ne_of_class (isLower_of_mem_word rfl c (List.mem_of_mem_head? hc)) hlower
  | int n =>
    have hd : isNoLead d = true := by rcases h with rfl | rfl | rfl <;> rfl
    have hinteger := Number.isInteger_integerText n.toInt
    exact fun c hc => ne_of_mem_integer hinteger (List.mem_of_mem_head? hc) hd
  | string s =>
    intro c hc
    simp only [literal, quote, List.cons_append, List.head?_cons, Option.mem_def,
      Option.some.injEq] at hc
    rw [← hc]
    rcases h with rfl | rfl | rfl <;> decide

theorem isSimpleLiteral_literal (x : Scalar) : isSimpleLiteral x.literal = true := by
  cases x with
  | null => decide
  | bool b => cases b <;> decide
  | int n => exact isSimpleLiteral_integer (Number.isInteger_integerText _)
  | string s => exact isSimpleLiteral_quote _

theorem ofText_literal (x : Scalar) : Literal.ofText x.literal = .ok (.value x.value) := by
  cases x with
  | null => rfl
  | bool b => cases b <;> rfl
  | int n =>
    exact Literal.ofText_integer (Number.isInteger_integerText _)
      (Number.readInt64?_integerText n)
  | string s => exact Literal.ofText_quote s

/-- A literal resolves to its scalar, whatever it could refer to. -/
theorem resolveBy_literal (expression? : Option (List Char → Except Fault Value)) (scope : Scope)
    (x : Scalar) : scope.resolveBy expression? x.literal = .ok x.value := by
  have henv : scope.env.expand? x.literal = none :=
    scope.env.expand?_of_head_ne (head_literal_ne (Or.inl rfl) x)
  have hresolve := @Scope.resolveBy_of_simple expression? scope x.literal
  rw [trim_literal, ofText_literal] at hresolve
  exact hresolve x.literal_ne_nil henv x.isSimpleLiteral_literal

end Scalar

end ConfigLang
