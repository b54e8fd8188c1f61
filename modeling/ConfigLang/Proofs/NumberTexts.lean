import ConfigLang.Proofs.BetweenQuotes
import ConfigLang.Proofs.IntegerArithmetic
import ConfigLang.Proofs.PathReferences

set_option autoImplicit false

/-! # Texts that are numbers

Three readers tell numbers from other texts: one asks whether a text describes a value by itself,
one gives the number that a literal is, and one the number that a string counts as in arithmetic.
They agree on decimals. Main statements: the first takes the words for infinity and for no number
too, which as literals are strings, so a key of such a name is never looked up
(`Scope.isSimpleLiteral_iff_number`), and the third refuses integers that 64 bits do not hold
(`Expr.Numeric.ofValue_string_iff`). -/

namespace ConfigLang

open Text

/-! ## Decimals and words -/

namespace Number

/-- Whether a text is a decimal behind an optional sign. -/
def isDecimal (text : List Char) : Bool :=
  (readDecimal? (splitSign text).2).isSome

/-- The words that are read as floats. -/
def floatWords : List String := ["inf", "infinity", "nan"]

/-- Whether a text is one of these words, in any case and behind an optional sign. -/
def isFloatWord (text : List Char) : Bool :=
  decide (String.ofList ((splitSign text).2.map Char.toLower) ∈ floatWords)

variable {text : List Char}

theorem isSome_readWord?_iff (negative : Bool) :
    (readWord? negative text).isSome = true
      ↔ String.ofList (text.map Char.toLower) ∈ floatWords := by
  simp only [readWord?, floatWords, List.mem_cons, List.not_mem_nil, or_false]
  split
  next hinf => simpa using hinf.elim Or.inl fun h => Or.inr (Or.inl h)
  next hinf =>
    rw [not_or] at hinf
    split
    next hnan => simp [hnan]
    next hnan => simp [hinf, hnan]

/-- Float numerals are decimals and words. -/
theorem isSome_readFloat?_iff :
    (readFloat? text).isSome = true ↔ isDecimal text = true ∨ isFloatWord text = true := by
  rw [isDecimal, isFloatWord, decide_eq_true_iff, ← isSome_readWord?_iff (splitSign text).1]
  unfold readFloat?
  dsimp only
  cases readDecimal? (splitSign text).2 <;> simp

/-- Every word for a float has the letter `n`, and no decimal has it. -/
theorem isDecimal_of_isFloatWord (h : isFloatWord text = true) : isDecimal text = false := by
  rw [isFloatWord, decide_eq_true_iff] at h
  have hletter : ∀ word ∈ floatWords, 'n' ∈ word.toList := by decide
  have hmem := hletter _ h
  rw [String.toList_ofList] at hmem
  obtain ⟨c, hc, hlower⟩ := List.mem_map.mp hmem
  have hnumeral : isNumeralChar c = false := by
    rw [← Bool.not_eq_true]
    intro hnumeral
    simp only [isNumeralChar, Bool.or_eq_true, beq_iff_eq] at hnumeral
    rcases hnumeral with ((((hdigit | rfl) | rfl) | rfl) | rfl) | rfl
    · rw [toLower_of_isDigit hdigit] at hlower
      exact absurd hdigit (by rw [hlower]; decide)
    all_goals exact absurd hlower (by decide)
  rw [isDecimal, readDecimal?_of_mem hnumeral hc]
  rfl

theorem isDecimal_of_isInteger (h : isInteger text = true) : isDecimal text = true := by
  rw [isDecimal, readDecimal?_of_isDigits h]
  rfl

/-- Whether a character makes a numeral that of a float. -/
def isFloatMark (c : Char) : Bool :=
  c == '.' || c == 'e' || c == 'E'

/-- A text is no word for a float if it has a character that none of them has. -/
theorem isFloatWord_of_mem {c : Char}
    (hne : c ≠ '-' ∧ c ≠ '+' ∧ ∀ word ∈ floatWords, c.toLower ∉ word.toList) (hc : c ∈ text) :
    isFloatWord text = false := by
  rw [isFloatWord, decide_eq_false_iff_not, ← isSome_readWord?_iff false,
    readWord?_of_mem hne.2.2 (mem_splitSign hne.1 hne.2.1 hc)]
  exact Bool.false_ne_true

theorem isFloatWord_of_mark {c : Char} (hmark : isFloatMark c = true) (hc : c ∈ text) :
    isFloatWord text = false := by
  refine isFloatWord_of_mem ?_ hc
  rw [isFloatMark, Bool.or_eq_true, Bool.or_eq_true, beq_iff_eq, beq_iff_eq, beq_iff_eq] at hmark
  rcases hmark with (rfl | rfl) | rfl <;> decide

/-- Without a point and an exponent a decimal is an integer. -/
theorem isDigits_of_readDecimal? (h : (readDecimal? text).isSome = true)
    (hmark : ∀ c ∈ text, isFloatMark c = false) : isDigits text = true := by
  have htext : text.takeWhile Char.isDigit ++ text.dropWhile Char.isDigit = text :=
    List.takeWhile_append_dropWhile
  have hrest : ∀ c ∈ text.dropWhile Char.isDigit, isFloatMark c = false :=
    fun c hc => hmark c (htext ▸ List.mem_append_right _ hc)
  unfold readDecimal? at h
  dsimp only at h
  cases hback : text.dropWhile Char.isDigit with
  | nil =>
    rw [hback, splitFraction] at h
    · rw [hback, List.append_nil] at htext
      rw [htext] at h
      rw [isDigits, Bool.and_eq_true]
      refine ⟨?_, ?_⟩
      · cases text with
        | nil => exact absurd h (by decide)
        | cons c rest => rfl
      · rw [← htext]
        exact List.all_takeWhile
    · exact fun _ h => absurd h (List.cons_ne_nil _ _).symm
  | cons c rest =>
    have hc := hrest c (by rw [hback]; exact List.mem_cons_self)
    rw [isFloatMark, Bool.or_eq_false_iff, Bool.or_eq_false_iff] at hc
    have hfraction : splitFraction (c :: rest) = ([], c :: rest) := by
      unfold splitFraction
      split
      next heq =>
        rw [(List.cons.inj heq).1] at hc
        exact absurd hc.1.1 (by decide)
      next => rfl
    rw [hback, hfraction] at h
    simp [readExponent?, hc] at h

theorem mem_of_mem_splitSign {c : Char} (h : c ∈ (splitSign text).2) : c ∈ text := by
  unfold splitSign at h
  split at h
  · exact List.mem_cons_of_mem _ h
  · exact List.mem_cons_of_mem _ h
  · exact h

theorem isInteger_of_isDecimal (h : isDecimal text = true)
    (hmark : ∀ c ∈ text, isFloatMark c = false) : isInteger text = true :=
  isDigits_of_readDecimal? h fun c hc => hmark c (mem_of_mem_splitSign hc)

/-- An integer numeral of a number that 64 bits do not hold. -/
def IsBeyond64 (text : List Char) : Prop :=
  ∃ n, readInteger? text = some n ∧ ¬ Expr.Fits64 n

theorem isInteger_iff : isInteger text = true ↔ ∃ n, readInteger? text = some n := by
  rw [isInteger, readInteger?]
  dsimp only
  split
  next hdigits => simp [hdigits]
  next hdigits => simp [hdigits]

theorem int64?_eq_none_iff {n : ℤ} : int64? n = none ↔ ¬ Expr.Fits64 n := by
  by_cases hfits : Expr.Fits64 n
  · obtain ⟨r, -, hr⟩ := Expr.exists_int64?_of_fits64 hfits
    simp [hr, hfits]
  · exact iff_of_true (if_neg hfits) hfits

theorem isBeyond64_iff : IsBeyond64 text ↔ isInteger text = true ∧ readInt64? text = none := by
  rw [isInteger_iff]
  constructor
  · rintro ⟨n, hread, hfits⟩
    exact ⟨⟨n, hread⟩, by rw [readInt64?, hread, Option.bind_some, int64?_eq_none_iff.mpr hfits]⟩
  · rintro ⟨⟨n, hread⟩, hnone⟩
    rw [readInt64?, hread, Option.bind_some] at hnone
    exact ⟨n, hread, int64?_eq_none_iff.mp hnone⟩

end Number

/-! ## Numbers of literals and numbers of arithmetic -/

section

open ConfigLang.Expr (Numeric)

variable {text : List Char}

theorem Expr.Numeric.toValue_inj {m n : Numeric} : m.toValue = n.toValue ↔ m = n := by
  cases m <;> cases n <;> simp [Numeric.toValue]

/-- A literal is the number that arithmetic makes of its text, or else a float if it is an integer
    numeral. -/
theorem numberValue?_eq (text : List Char) :
    numberValue? text
      = match Numeric.ofText? text with
        | some n => some n.toValue
        | none => if Number.isInteger text then (Number.readFloat? text).map .float else none := by
  unfold numberValue? Numeric.ofText?
  split
  · cases Number.readFloat? text with
    | some x => rfl
    | none => simp
  · cases Number.readInt64? text with
    | some n => rfl
    | none => rfl

theorem exists_toValue_of_numberValue? {v : Value} (h : numberValue? text = some v) :
    ∃ n : Numeric, v = n.toValue := by
  have hfloat : ∀ {x? : Option Float}, x?.map Value.float = some v →
      ∃ n : Numeric, v = n.toValue := by
    intro x? hx
    obtain ⟨x, -, rfl⟩ := Option.map_eq_some_iff.mp hx
    exact ⟨.float x, rfl⟩
  rw [numberValue?_eq] at h
  split at h
  next n _ => exact ⟨n, (Option.some.inj h).symm⟩
  next =>
    split at h
    · exact hfloat h
    · exact absurd h (by simp)

/-- The numbers among the literals are the decimals. -/
theorem isSome_numberValue?_iff :
    (numberValue? text).isSome = true ↔ Number.isDecimal text = true := by
  unfold numberValue?
  split
  next hmark =>
    rw [Option.isSome_map, Number.isSome_readFloat?_iff, or_iff_left_iff_imp]
    intro hword
    -- no word for a float has a point or the letter of an exponent
    obtain ⟨c, hc, hmark⟩ := List.any_eq_true.mp hmark
    exact absurd hword (Bool.eq_false_iff.mp (Number.isFloatWord_of_mark hmark hc))
  next hmark =>
    have hmark : ∀ c ∈ text, Number.isFloatMark c = false := by
      simpa [Number.isFloatMark] using hmark
    have hinteger : Number.isDecimal text = true ↔ Number.isInteger text = true :=
      ⟨fun h => Number.isInteger_of_isDecimal h hmark, Number.isDecimal_of_isInteger⟩
    rw [hinteger]
    cases hread : Number.readInt64? text with
    | some n =>
      obtain ⟨m, hm, -⟩ := Option.bind_eq_some_iff.mp hread
      simp [Number.isInteger_iff.mpr ⟨m, hm⟩]
    | none =>
      dsimp only
      split
      next h => simp [h, Number.isSome_readFloat?_of_isInteger h]
      next h => simp [h]

theorem numberValue?_of_readFloat? (h : Number.readFloat? text = none) :
    numberValue? text = none := by
  rw [← Option.not_isSome_iff_eq_none, isSome_numberValue?_iff]
  intro hdecimal
  have hsome := Number.isSome_readFloat?_iff.mpr (Or.inl hdecimal)
  rw [h] at hsome
  exact Bool.false_ne_true hsome

end

namespace Expr.Numeric

variable {text : List Char}

theorem ofText?_of_isInteger (h : Number.isInteger text = true) :
    ofText? text = (Number.readInt64? text).map .int := by
  rw [ofText?, any_mark_of_isInteger h]
  rfl

/-- An integer beyond 64 bits is a number for literals only. -/
theorem isBeyond64_iff_ofText? :
    Number.IsBeyond64 text ↔ ofText? text = none ∧ Number.isInteger text = true := by
  rw [Number.isBeyond64_iff, and_comm]
  refine and_congr_left fun h => ?_
  rw [ofText?_of_isInteger h, Option.map_eq_none_iff]

theorem exists_float_of_isBeyond64 (h : Number.IsBeyond64 text) :
    ∃ x, Number.readFloat? text = some x ∧ numberValue? text = some (.float x) := by
  obtain ⟨hnone, hinteger⟩ := isBeyond64_iff_ofText?.mp h
  obtain ⟨x, hx⟩ := Option.isSome_iff_exists.mp (Number.isSome_readFloat?_of_isInteger hinteger)
  refine ⟨x, hx, ?_⟩
  rw [numberValue?_eq, hnone]
  dsimp only
  rw [if_pos hinteger, hx, Option.map_some]

theorem numberValue?_of_not_isBeyond64 (h : ¬ Number.IsBeyond64 text) :
    numberValue? text = (ofText? text).map toValue := by
  rw [numberValue?_eq]
  cases hread : ofText? text with
  | some n => rfl
  | none => exact if_neg fun hinteger => h (isBeyond64_iff_ofText?.mpr ⟨hread, hinteger⟩)

theorem ofValue_string (s : String) :
    ofValue (.string s) = match ofText? (trim s.toList) with
      | some n => .ok n
      | none => .error (.mistyped (.notNumber (.string s))) := rfl

theorem ofValue_of_isBeyond64 {s : String} (h : Number.IsBeyond64 (trim s.toList)) :
    ofValue (.string s) = .error (.mistyped (.notNumber (.string s))) := by
  rw [ofValue_string, (isBeyond64_iff_ofText?.mp h).1]

/-- A string counts as the number that its text is as a literal, unless that is an integer that 64
    bits do not hold: such a string counts as no number, and such a literal is a float. -/
theorem ofValue_string_iff (s : String) :
    ((∀ n : Numeric, ofValue (.string s) = .ok n ↔ numberValue? (trim s.toList) = some n.toValue)
        ↔ ¬ Number.IsBeyond64 (trim s.toList))
      ∧ (Number.IsBeyond64 (trim s.toList) →
        ofValue (.string s) = .error (.mistyped (.notNumber (.string s)))
          ∧ ∃ x, Number.readFloat? (trim s.toList) = some x
            ∧ numberValue? (trim s.toList) = some (.float x)) := by
  refine ⟨⟨fun hagree hbeyond => ?_, fun hfits n => ?_⟩,
    fun hbeyond => ⟨ofValue_of_isBeyond64 hbeyond, exists_float_of_isBeyond64 hbeyond⟩⟩
  · obtain ⟨x, -, hx⟩ := exists_float_of_isBeyond64 hbeyond
    have hok := (hagree (.float x)).mpr hx
    rw [ofValue_of_isBeyond64 hbeyond] at hok
    exact absurd hok (by simp)
  · rw [ofValue_string, numberValue?_of_not_isBeyond64 hfits]
    cases ofText? (trim s.toList) with
    | none => simp
    | some m => simp [toValue_inj]

/-- A number between blanks, the least integer of 64 bits, and the integer beyond the greatest. -/
theorem ofValue_string_iff_limits :
    ofValue (.string " 40 ") = .ok (.int 40)
      ∧ ofValue (.string "-9223372036854775808") = .ok (.int (-9223372036854775808))
      ∧ ofValue (.string "9223372036854775808")
        = .error (.mistyped (.notNumber (.string "9223372036854775808"))) := by
  have hfits : ∀ {s : String}, Number.readInt64? (trim s.toList) ≠ none →
      ¬ Number.IsBeyond64 (trim s.toList) :=
    fun hread hbeyond => hread (Number.isBeyond64_iff.mp hbeyond).2
  refine ⟨?_, ?_, ?_⟩
  · exact ((ofValue_string_iff " 40 ").1.mpr (hfits (by decide)) (.int 40)).mpr rfl
  · exact ((ofValue_string_iff "-9223372036854775808").1.mpr (hfits (by decide))
      (.int (-9223372036854775808))).mpr rfl
  · exact ((ofValue_string_iff "9223372036854775808").2
      (Number.isBeyond64_iff.mpr ⟨by decide, by decide⟩)).1

/-- The integer beyond the greatest of 64 bits is a float as a literal and no number as a string. -/
theorem ofValue_string_beyond :
    (∃ n : Numeric, numberValue? (trim "9223372036854775808".toList) = some n.toValue
        ∧ ofValue (.string "9223372036854775808") ≠ .ok n)
      ∧ apply .mul (.string "9223372036854775808") (.int 1)
        = .error (.mistyped (.notNumber (.string "9223372036854775808"))) := by
  have hbeyond : Number.IsBeyond64 (trim "9223372036854775808".toList) :=
    Number.isBeyond64_iff.mpr ⟨by decide, by decide⟩
  obtain ⟨x, -, hx⟩ := exists_float_of_isBeyond64 hbeyond
  refine ⟨⟨.float x, hx, ?_⟩, rfl⟩
  rw [ofValue_of_isBeyond64 hbeyond]
  simp

end Expr.Numeric

/-! ## Texts that describe a number by themselves -/

/-- A trimmed text without quotes, brackets and braces around it that is no word for a value. -/
structure IsBare (text : List Char) : Prop where
  trim_eq : trim text = text
  unquoted?_eq : unquoted? text = none
  isBracketed_eq : isBracketed text = false
  isBraced_eq : isBraced text = false
  wordValue?_eq : wordValue? text = none

namespace IsBare

variable {text : List Char}

instance : Decidable (IsBare text) :=
  decidable_of_iff (trim text = text ∧ unquoted? text = none ∧ isBracketed text = false
    ∧ isBraced text = false ∧ wordValue? text = none)
    ⟨fun ⟨htrim, hquoted, hbracketed, hbraced, hword⟩ =>
      ⟨htrim, hquoted, hbracketed, hbraced, hword⟩,
      fun ⟨htrim, hquoted, hbracketed, hbraced, hword⟩ =>
        ⟨htrim, hquoted, hbracketed, hbraced, hword⟩⟩

theorem isSimpleLiteral_eq (h : IsBare text) :
    isSimpleLiteral text = (Number.readFloat? text).isSome := by
  simp [isSimpleLiteral, h.trim_eq, h.unquoted?_eq, h.isBracketed_eq, h.isBraced_eq,
    h.wordValue?_eq]

theorem ofText_eq (h : IsBare text) :
    Literal.ofText text
      = .ok (.value ((numberValue? text).getD (.string (String.ofList text)))) := by
  simp [Literal.ofText, Literal.ofTrimmed, h.trim_eq, h.unquoted?_eq, h.isBracketed_eq,
    h.isBraced_eq, h.wordValue?_eq]

theorem decodeLiteral_eq (h : IsBare text) (scope : Scope) :
    scope.decodeLiteral text
      = .ok ((numberValue? text).getD (.string (String.ofList text))) := by
  rw [Scope.decodeLiteral, h.ofText_eq]
  rfl

/-- A text that is no number stands for itself as a literal. -/
theorem ofText_of_readFloat? (h : IsBare text) (hfloat : Number.readFloat? text = none) :
    Literal.ofText text = .ok (.value (.string (String.ofList text))) := by
  rw [h.ofText_eq, numberValue?_of_readFloat? hfloat]
  rfl

theorem isSimpleLiteral_of_readFloat? (h : IsBare text) (hfloat : Number.readFloat? text = none) :
    isSimpleLiteral text = false := by
  rw [h.isSimpleLiteral_eq, hfloat]
  rfl

/-- As a literal such a text is a number exactly if it is a decimal. -/
theorem exists_toValue_iff (h : IsBare text) (scope : Scope) :
    (∃ n : Expr.Numeric, scope.decodeLiteral text = .ok n.toValue)
      ↔ Number.isDecimal text = true := by
  rw [h.decodeLiteral_eq, ← isSome_numberValue?_iff]
  cases hvalue : numberValue? text with
  | some v =>
    obtain ⟨n, rfl⟩ := exists_toValue_of_numberValue? hvalue
    exact iff_of_true ⟨n, rfl⟩ rfl
  | none =>
    refine iff_of_false ?_ Bool.false_ne_true
    rintro ⟨n, hn⟩
    cases n <;> simp [Expr.Numeric.toValue] at hn

end IsBare

namespace Scope

variable {text : List Char}

/-- An identifier that is no word is what stands under it in the tree. -/
theorem resolve_identifier (scope : Scope) (hid : isIdentifier text = true)
    (hword : wordValue? text = none) (hfloat : Number.isFloatWord text = false) :
    scope.resolve text = scope.resolveReference text := by
  have hkey : (KeyPath.text [String.ofList text]).toList = text := by
    rw [KeyPath.text, String.intercalate_singleton, String.toList_ofList]
  have hnamed : KeyPath.IsNamed [String.ofList text] := ⟨by simp, by simpa using hid⟩
  have hstarts := hnamed.isDotted.startsName
  rw [hkey] at hstarts
  have hnoword : String.ofList (text.map Char.toLower) ∉ KeyPath.valueWords := by
    have hnone : String.ofList (text.map Char.toLower) ∉ ["null", "true", "false"] := by
      intro hmem
      simp only [List.mem_cons, List.not_mem_nil, or_false] at hmem
      rcases hmem with h | h | h <;> simp [wordValue?, h] at hword
    have hsign : Number.splitSign text = (false, text) :=
      Number.splitSign_of_head_ne fun c hc => ⟨hstarts.head_ne rfl c hc, hstarts.head_ne rfl c hc⟩
    rw [Number.isFloatWord, decide_eq_false_iff_not, hsign] at hfloat
    simp only [Number.floatWords, KeyPath.valueWords, List.mem_cons, not_or] at hnone hfloat ⊢
    tauto
  have hpath : KeyPath.IsReference [String.ofList text] := by
    refine ⟨hnamed.nonempty, hnamed.identifiers, fun h => absurd h (by simp), fun _ key hmem => ?_⟩
    obtain rfl := Option.some.inj hmem
    rwa [String.toList_ofList]
  have hresolve := scope.resolve_text hpath
  rwa [hkey] at hresolve

/-- A word for a float is a string as a literal, and its text is never looked up. -/
theorem resolve_of_isFloatWord (scope : Scope) (h : IsBare text)
    (hword : Number.isFloatWord text = true) :
    isSimpleLiteral text = true
      ∧ scope.decodeLiteral text = .ok (.string (String.ofList text))
      ∧ scope.resolve text = .ok (.string (String.ofList text)) := by
  have hsimple : isSimpleLiteral text = true := by
    rw [h.isSimpleLiteral_eq]
    exact Number.isSome_readFloat?_iff.mpr (Or.inr hword)
  have hvalue : numberValue? text = none := by
    rw [← Option.not_isSome_iff_eq_none, isSome_numberValue?_iff,
      Number.isDecimal_of_isFloatWord hword]
    exact Bool.false_ne_true
  have hliteral : scope.decodeLiteral text = .ok (.string (String.ofList text)) := by
    rw [h.decodeLiteral_eq, hvalue]
    rfl
  have hne : text ≠ [] := by
    rintro rfl
    exact absurd hword (by decide)
  have hdollar : '$' ∉ text := fun hmem =>
    absurd hword (by rw [Number.isFloatWord_of_mem (by decide) hmem]; exact Bool.false_ne_true)
  have hexpand : scope.env.expand? text = none :=
    scope.env.expand?_of_head_ne fun c hc => by
      rintro rfl
      exact hdollar (List.mem_of_mem_head? hc)
  have hresolve := @resolveBy_of_simple (some scope.evaluateExpression) scope text
  rw [h.trim_eq] at hresolve
  exact ⟨hsimple, hliteral, (hresolve hne hexpand hsimple).trans hliteral⟩

/-- A bare text describes a value by itself exactly if it is a number as a literal, unless it is a
    word for a float: such a word describes a value by itself and is a string. Any other identifier
    is looked up. -/
theorem isSimpleLiteral_iff_number (scope : Scope) (h : IsBare text) :
    ((isSimpleLiteral text = true ↔ ∃ n : Expr.Numeric, scope.decodeLiteral text = .ok n.toValue)
        ↔ Number.isFloatWord text = false)
      ∧ (Number.isFloatWord text = true →
        isSimpleLiteral text = true
          ∧ scope.decodeLiteral text = .ok (.string (String.ofList text))
          ∧ scope.resolve text = .ok (.string (String.ofList text)))
      ∧ (Number.isFloatWord text = false → isIdentifier text = true →
        scope.resolve text = scope.resolveReference text) := by
  refine ⟨?_, scope.resolve_of_isFloatWord h,
    fun hword hid => scope.resolve_identifier hid h.wordValue?_eq hword⟩
  rw [h.isSimpleLiteral_eq, h.exists_toValue_iff, Number.isSome_readFloat?_iff,
    or_iff_left_iff_imp, ← Bool.not_eq_true]
  refine ⟨fun himp hword => ?_, fun hword hfloat => absurd hfloat hword⟩
  have hdecimal := himp hword
  rw [Number.isDecimal_of_isFloatWord hword] at hdecimal
  exact absurd hdecimal Bool.false_ne_true

/-- A decimal, a key and a word for a float that is a key too. -/
theorem isSimpleLiteral_iff_number_port :
    (isSimpleLiteral "-1e5".toList = true
        ↔ ∃ n : Expr.Numeric, decodeLiteral {} "-1e5".toList = .ok n.toValue)
      ∧ resolve ⟨⟨[("port", .int 80), ("NaN", .int 5)]⟩, [], {}⟩ "port".toList = .ok (.int 80)
      ∧ resolve ⟨⟨[("port", .int 80), ("NaN", .int 5)]⟩, [], {}⟩ "NaN".toList
        = .ok (.string "NaN") := by
  have hdecimal : IsBare "-1e5".toList := by decide
  have hport : IsBare "port".toList := by decide
  have hnan : IsBare "NaN".toList := by decide
  obtain ⟨hagree, -, -⟩ := isSimpleLiteral_iff_number {} hdecimal
  obtain ⟨-, -, hkey⟩ :=
    isSimpleLiteral_iff_number ⟨⟨[("port", .int 80), ("NaN", .int 5)]⟩, [], {}⟩ hport
  obtain ⟨-, hword, -⟩ :=
    isSimpleLiteral_iff_number ⟨⟨[("port", .int 80), ("NaN", .int 5)]⟩, [], {}⟩ hnan
  exact ⟨hagree.mpr (by decide), (hkey (by decide) (by decide)).trans rfl,
    (hword (by decide)).2.2⟩

/-- A key with the name of infinity: the text describes a value by itself but is no number, and it
    resolves to a string although the tree has the key. -/
theorem decodeLiteral_inf :
    isSimpleLiteral "inf".toList = true
      ∧ (¬ ∃ n : Expr.Numeric, decodeLiteral {} "inf".toList = .ok n.toValue)
      ∧ isIdentifier "inf".toList = true
      ∧ resolve ⟨⟨[("inf", .int 5)]⟩, [], {}⟩ "inf".toList = .ok (.string "inf")
      ∧ resolveReference ⟨⟨[("inf", .int 5)]⟩, [], {}⟩ "inf".toList = .ok (.int 5) := by
  have hbare : IsBare "inf".toList := by decide
  obtain ⟨hsimple, -, hresolve⟩ :=
    resolve_of_isFloatWord ⟨⟨[("inf", .int 5)]⟩, [], {}⟩ hbare (by decide)
  refine ⟨hsimple, ?_, by decide, hresolve, rfl⟩
  rw [hbare.exists_toValue_iff]
  decide

end Scope

end ConfigLang
