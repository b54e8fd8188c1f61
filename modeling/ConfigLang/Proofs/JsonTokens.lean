import ConfigLang.Json.Reader
import ConfigLang.Number.Power
import ConfigLang.Proofs.UngroupedValues
import ConfigLang.Value.Text

set_option autoImplicit false

/-! # The tokens of written JSON

What JSON holds as it is are the values without floats in which no object repeats a key; the reader
further limits how deep arrays and objects may be nested. Main statement: the compact text of such a
value is cut into the tokens of the value and of nothing else (`Json.Fits.spells`), whatever stands
in its strings: each character is read back from how it is escaped (`Json.readString?_escaped`). -/

namespace ConfigLang

open scoped CorePower

/-! ## Numerals -/

namespace Number

theorem head?_digitsOf_ne {n : Nat} (h : 0 < n) : (digitsOf n).head? ≠ some '0' := by
  induction n using Nat.strongRecOn with
  | ind n ih =>
    by_cases hn : n < 10
    · have hdigit : ∀ d < 10, 0 < d → Nat.digitChar d ≠ '0' := by decide
      rw [digitsOf, Nat.toDigits_of_lt_base hn]
      simpa using hdigit n hn h
    · have hfront : (digitsOf (n / 10)).head? ≠ some '0' := ih (n / 10) (by omega) (by omega)
      rw [digitsOf, Nat.toDigits_of_base_le (by decide) (by omega),
        List.head?_append_of_ne_nil _ Nat.toDigits_ne_nil]
      exact hfront

end Number

namespace Json

/-! ## Values that JSON holds -/

/-- A value that JSON holds as it is, nested at most `depth` deep: no part of it is a float, and no
    object in it has two entries of one key. -/
inductive Fits : (depth : Nat) → Value → Prop where
  | null {depth : Nat} : Fits depth .null
  | bool {depth : Nat} (b : Bool) : Fits depth (.bool b)
  | int {depth : Nat} (n : Int64) : Fits depth (.int n)
  | string {depth : Nat} (s : String) : Fits depth (.string s)
  | array {depth : Nat} {items : List Value} (hitems : ∀ item ∈ items, Fits depth item) :
      Fits (depth + 1) (.array items)
  | object {depth : Nat} {entries : List (String × Value)} (hkeys : (Entries.keys entries).Nodup)
      (hheld : ∀ entry ∈ entries, Fits depth entry.2) : Fits (depth + 1) (.object entries)

/-! ## Strings -/

theorem readString?_quote (rest : List Char) : readString? ('"' :: rest) = some ([], rest) := by
  rw [readString?, if_pos rfl]

theorem readString?_escape {text after : List Char} {c : Char}
    (h : readEscape? text = some (c, after)) :
    readString? ('\\' :: text) = (readString? after).map fun (s, last) => (c :: s, last) := by
  rw [readString?, if_neg (by decide), if_pos rfl]
  split
  next hnone =>
    rw [hnone] at h
    cases h
  next d tail hsome =>
    rw [hsome] at h
    obtain ⟨rfl, rfl⟩ := Prod.mk.inj (Option.some.inj h)
    rfl

theorem readString?_plain {c : Char} (hquote : c ≠ '"') (hslash : c ≠ '\\') (hlow : ¬c.toNat < 0x20)
    (text : List Char) :
    readString? (c :: text) = (readString? text).map fun (s, last) => (c :: s, last) := by
  rw [readString?, if_neg hquote, if_neg hslash, if_neg hlow]

/-- The four digits of a control character. -/
theorem readUnit?_control {n : Nat} (h : n < 32) (rest : List Char) :
    readUnit? ('0' :: '0' :: Nat.digitChar (n / 16) :: Nat.digitChar (n % 16) :: rest)
      = some (n, rest) := by
  have hunit : ∀ n < 32,
      readUnit? ['0', '0', Nat.digitChar (n / 16), Nat.digitChar (n % 16)] = some (n, []) := by
    decide
  have hdigits := hunit n h
  simp only [readUnit?, List.take_succ_cons, List.take_zero, List.drop_succ_cons, List.drop_zero,
    Option.ite_none_right_eq_some, Option.some.injEq, Prod.mk.injEq, and_true] at hdigits ⊢
  exact hdigits

/-- Every character is read back from how it is escaped. -/
theorem readString?_escapeChar (c : Char) (text : List Char) :
    readString? (escapeChar c ++ text)
      = (readString? text).map fun (s, last) => (c :: s, last) := by
  unfold escapeChar
  split
  case h_8 hquote hslash _ _ _ _ _ =>
    split
    next hlow =>
      refine readString?_escape ?_
      have hunits : readUnits? ('0' :: '0' :: Nat.digitChar (c.toNat / 16)
          :: Nat.digitChar (c.toNat % 16) :: text) = some (c, text) := by
        rw [readUnits?, readUnit?_control hlow]
        simp only [Char.ofNat_toNat]
        exact if_pos (Or.inl (by omega))
      exact hunits
    next hhigh => exact readString?_plain hquote hslash hhigh text
  all_goals exact readString?_escape rfl

/-- A string is read back from its escaped characters up to the closing quote. -/
theorem readString?_escaped (s rest : List Char) :
    readString? (s.flatMap escapeChar ++ '"' :: rest) = some (s, rest) := by
  induction s with
  | nil => exact readString?_quote rest
  | cons c s ih =>
    rw [List.flatMap_cons, List.append_assoc, readString?_escapeChar, ih]
    rfl

/-! ## Integers -/

/-- Digits are gathered to the end if the number they stand for fits. -/
theorem gather_eq {significand : Nat} {digits : List Char}
    (h : Nat.ofDigitChars 10 digits significand < 2 ^ 64) :
    gather significand digits = (Nat.ofDigitChars 10 digits significand, []) := by
  induction digits generalizing significand with
  | nil => rfl
  | cons d rest ih =>
    rw [Nat.ofDigitChars_cons] at h ⊢
    have hle : 10 * significand + (d.toNat - '0'.toNat)
        ≤ Nat.ofDigitChars 10 rest (10 * significand + (d.toNat - '0'.toNat)) := by
      rw [Nat.ofDigitChars_eq_ofDigitChars_zero]
      exact Nat.le_add_right_of_le (Nat.le_mul_of_pos_left _ (Nat.pow_pos (by decide)))
    rw [gather, if_pos (Nat.lt_of_le_of_lt hle h), ih h]

theorem unsigned?_digitsOf (negative : Bool) {n : Nat} (h : n < 2 ^ 64) :
    unsigned? negative (Number.digitsOf n) = some (integer negative n) := by
  have hdigit : ∀ c ∈ Number.digitsOf n, c.isDigit = true := fun _ => Number.isDigit_of_mem_digitsOf
  have hwhole : (Number.digitsOf n).takeWhile Char.isDigit = Number.digitsOf n :=
    List.takeWhile_eq_self_iff.mpr hdigit
  have hrest : (Number.digitsOf n).dropWhile Char.isDigit = [] :=
    List.dropWhile_eq_nil_iff.mpr hdigit
  have hgather : gather 0 (Number.digitsOf n) = (n, []) := by
    have hvalue : Nat.ofDigitChars 10 (Number.digitsOf n) 0 = n := Number.ofDigits_digitsOf n
    rw [gather_eq (by rw [hvalue]; exact h), hvalue]
  -- the only numeral that begins with zero is zero itself
  have hlead : ((Number.digitsOf n).isEmpty
      || ((Number.digitsOf n).head? == some '0' && (Number.digitsOf n).length != 1)) = false := by
    rw [List.isEmpty_eq_false_iff.mpr (Number.digitsOf_ne_nil n), Bool.false_or]
    rcases Nat.eq_zero_or_pos n with rfl | hpos
    · rfl
    · rw [beq_eq_false_iff_ne.mpr (Number.head?_digitsOf_ne hpos), Bool.false_and]
  unfold unsigned?
  simp only [hwhole, hrest, hgather, hlead]
  rfl

/-- A minus sign is read off, and digits have none. -/
theorem readNumber?_signed (negative : Bool) (n : Nat) :
    readNumber? (Number.signText negative ++ Number.digitsOf n)
      = unsigned? negative (Number.digitsOf n) := by
  cases negative with
  | true => rfl
  | false =>
    show readNumber? (Number.digitsOf n) = _
    unfold readNumber?
    split
    next rest hdigits =>
      have hminus : '-' ∈ Number.digitsOf n := hdigits ▸ List.mem_cons_self
      exact absurd (Number.isDigit_of_mem_digitsOf hminus) (by decide)
    next => rfl

/-- From the sign and the magnitude of an integer in range the integer comes back, also from the
    least one, whose magnitude is beyond the range. -/
theorem integer_natAbs (n : Int64) : integer (n.toInt < 0) n.toInt.natAbs = .int n := by
  have hlow := n.le_toInt
  have hhigh := n.toInt_lt
  by_cases hneg : n.toInt < 0
  · have habs : -(n.toInt.natAbs : Int) = n.toInt := by omega
    rw [integer, decide_eq_true hneg, if_pos rfl, if_pos ⟨by omega, by omega⟩, habs,
      Int64.ofInt_toInt]
  · have habs : (n.toInt.natAbs : Int) = n.toInt := by omega
    rw [integer, decide_eq_false hneg, if_neg (by decide), if_pos (by omega),
      ← Int64.ofInt_eq_ofNat, habs, Int64.ofInt_toInt]

theorem readNumber?_integerText (n : Int64) :
    readNumber? (Number.integerText n.toInt) = some (.int n) := by
  have hfits : n.toInt.natAbs < 2 ^ 64 := by
    have hlow := n.le_toInt
    have hhigh := n.toInt_lt
    omega
  rw [Number.integerText, readNumber?_signed, unsigned?_digitsOf _ hfits, integer_natAbs]

theorem readScalar?_integerText (n : Int64) :
    readScalar? (Number.integerText n.toInt) = some (.int n) := by
  have hword : ∀ {c : Char} {word : List Char}, c ∈ word → ¬(c.isDigit = true ∨ c = '-' ∨ c = '+') →
      Number.integerText n.toInt ≠ word := by
    rintro c word hc hletter rfl
    exact hletter (Number.isDigit_or_sign_of_mem (Number.isInteger_integerText n.toInt) hc)
  rw [readScalar?, if_neg (hword (c := 'n') (by decide) (by decide)),
    if_neg (hword (c := 't') (by decide) (by decide)),
    if_neg (hword (c := 'f') (by decide) (by decide)), readNumber?_integerText]

/-! ## Texts and their tokens -/

/-- A scalar goes as far as there are scalar characters. -/
theorem tokens?_of_scalar {c : Char} (h : isScalarChar c = true) (rest : List Char) :
    tokens? (c :: rest) = (readScalar? (c :: rest.takeWhile isScalarChar)).bind fun v =>
      (tokens? (rest.dropWhile isScalarChar)).map (.scalar v :: ·) := by
  have hne : ∀ {d : Char}, isScalarChar d = false → c ≠ d := by
    rintro d hd rfl
    rw [h] at hd
    cases hd
  have hspace : isSpace c = false := by
    simp only [isSpace, Bool.or_eq_false_iff, beq_eq_false_iff_ne]
    exact ⟨⟨⟨hne (by decide), hne (by decide)⟩, hne (by decide)⟩, hne (by decide)⟩
  have hpunctuation : punctuation? c = none := by
    unfold punctuation?
    split
    case h_7 => rfl
    all_goals exact absurd rfl (hne (by decide))
  have hquote : c ≠ '"' := hne (by decide)
  rw [tokens?, hspace, hpunctuation]
  simp only [Bool.false_eq_true, if_false, if_neg hquote, h, if_true]
  cases readScalar? (c :: rest.takeWhile isScalarChar) <;> rfl

/-- Punctuation is neither blank nor a part of a scalar. -/
theorem apart_of_punctuation {c : Char} {token : Token} (h : punctuation? c = some token) :
    isSpace c = false ∧ isScalarChar c = false := by
  unfold punctuation? at h
  split at h
  case h_7 => cases h
  all_goals decide

/-- A text is cut into the tokens, before any text that does not lengthen its last scalar. -/
def Spells (text : List Char) (tokens : List Token) : Prop :=
  ∀ rest, (∀ c ∈ rest.head?, isScalarChar c = false) →
    tokens? (text ++ rest) = (tokens? rest).map (tokens ++ ·)

namespace Spells

variable {text more : List Char} {tokens others : List Token}

theorem nil : Spells [] [] := by
  intro rest _
  cases h : tokens? rest <;> simp [h]

theorem append (h : Spells text tokens) (hmore : Spells more others)
    (hhead : ∀ c ∈ more.head?, isScalarChar c = false) :
    Spells (text ++ more) (tokens ++ others) := by
  intro rest hrest
  have hboundary : ∀ c ∈ (more ++ rest).head?, isScalarChar c = false := by
    cases more with
    | nil => exact hrest
    | cons d tail => exact hhead
  rw [List.append_assoc, h _ hboundary, hmore rest hrest, Option.map_map]
  simp only [Function.comp_def, List.append_assoc]

/-- Punctuation is a token in front of any text. -/
theorem punctuation {c : Char} {token : Token} (hc : punctuation? c = some token)
    (h : Spells text tokens) : Spells (c :: text) (token :: tokens) := by
  intro rest hrest
  rw [List.cons_append, Json.tokens?, (apart_of_punctuation hc).1, hc, h rest hrest]
  simp only [Bool.false_eq_true, if_false, Option.map_map, Function.comp_def, List.cons_append]

/-- A string is a token in front of any text. -/
theorem string (s : String) (h : Spells text tokens) :
    Spells (writeString s ++ text) (.string s.toList :: tokens) := by
  intro rest hrest
  have hread : readString? (s.toList.flatMap escapeChar ++ '"' :: (text ++ rest))
      = some (s.toList, text ++ rest) := readString?_escaped _ _
  have hwritten : writeString s ++ text ++ rest
      = '"' :: (s.toList.flatMap escapeChar ++ '"' :: (text ++ rest)) := by
    simp [writeString]
  rw [hwritten, Json.tokens?]
  simp only [show isSpace '"' = false from rfl, show punctuation? '"' = none from rfl,
    Bool.false_eq_true, if_false, if_true]
  split
  next hnone =>
    rw [hread] at hnone
    cases hnone
  next s' after hsome =>
    obtain ⟨rfl, rfl⟩ := Prod.mk.inj (Option.some.inj (hread.symm.trans hsome))
    rw [h rest hrest, Option.map_map]
    simp only [Function.comp_def, List.cons_append]

/-- A run of scalar characters is one token up to where it ends. -/
theorem scalar {word : List Char} {v : Value} (hne : word ≠ [])
    (hword : ∀ c ∈ word, isScalarChar c = true) (hread : readScalar? word = some v) :
    Spells word [.scalar v] := by
  intro rest hrest
  obtain ⟨c, tail, rfl⟩ := List.exists_cons_of_ne_nil hne
  have htail : ∀ d ∈ tail, isScalarChar d = true := fun d hd => hword d (List.mem_cons_of_mem _ hd)
  rw [List.cons_append, tokens?_of_scalar (hword c List.mem_cons_self),
    Text.takeWhile_run_append htail hrest, Text.dropWhile_run_append htail hrest, hread]
  rfl

/-- Items with commas between them. -/
theorem intercalate {α : Type} {write : α → List Char} {tokensOf : α → List Token} {items : List α}
    (h : ∀ item ∈ items, Spells (write item) (tokensOf item)) :
    Spells ([','].intercalate (items.map write)) ([.comma].intercalate (items.map tokensOf)) := by
  induction items with
  | nil => exact nil
  | cons item rest ih =>
    obtain ⟨hitem, hothers⟩ := List.forall_mem_cons.mp h
    have hrest := ih hothers
    cases rest with
    | nil => simpa using hitem
    | cons next others =>
      rw [List.map_cons, List.map_cons, List.intercalate_cons_cons, List.map_cons, List.map_cons,
        List.intercalate_cons_cons, List.append_assoc, List.append_assoc]
      refine hitem.append (punctuation rfl hrest) fun c hc => ?_
      obtain rfl := Option.some.inj hc
      rfl

end Spells

/-! ## The tokens of a value -/

mutual

/-- The tokens that a value is written with. -/
def tokensOf : Value → List Token
  | .string s => [.string s.toList]
  | .array items => .openBracket :: [.comma].intercalate (itemTokens items) ++ [.closeBracket]
  | .object entries => .openBrace :: [.comma].intercalate (entryTokens entries) ++ [.closeBrace]
  | v => [.scalar v]

def itemTokens : List Value → List (List Token)
  | [] => []
  | item :: rest => tokensOf item :: itemTokens rest

def entryTokens : List (String × Value) → List (List Token)
  | [] => []
  | (key, held) :: rest => (.string key.toList :: .colon :: tokensOf held) :: entryTokens rest

end

theorem itemTokens_eq_map (items : List Value) : itemTokens items = items.map tokensOf := by
  induction items with
  | nil => rfl
  | cons item rest ih => rw [itemTokens, ih, List.map_cons]

theorem entryTokens_eq_map (entries : List (String × Value)) :
    entryTokens entries
      = entries.map fun entry => .string entry.1.toList :: .colon :: tokensOf entry.2 := by
  induction entries with
  | nil => rfl
  | cons entry rest ih => rw [entryTokens, ih, List.map_cons]

/-- Between brackets or braces stand pieces with commas between them. -/
theorem Spells.enclosed {α : Type} {write : α → List Char} {tokensOf : α → List Token}
    {parts : List α} (h : ∀ part ∈ parts, Spells (write part) (tokensOf part)) {first last : Char}
    {opening closing : Token} (hfirst : punctuation? first = some opening)
    (hlast : punctuation? last = some closing) :
    Spells (first :: [','].intercalate (parts.map write) ++ [last])
      (opening :: [.comma].intercalate (parts.map tokensOf) ++ [closing]) := by
  refine .punctuation hfirst ((Spells.intercalate h).append (.punctuation hlast .nil) fun c hc => ?_)
  obtain rfl := Option.some.inj hc
  exact (apart_of_punctuation hlast).2

/-- The text of a value that JSON holds is cut into its tokens. -/
theorem Fits.spells {depth : Nat} {v : Value} (h : Fits depth v) :
    Spells (write v) (tokensOf v) := by
  induction h with
  | null =>
    simp only [write, tokensOf]
    exact .scalar (by decide) (List.all_eq_true.mp rfl) rfl
  | bool b =>
    simp only [write, tokensOf]
    cases b <;> exact .scalar (by decide) (List.all_eq_true.mp rfl) rfl
  | int n =>
    simp only [write, tokensOf]
    exact .scalar (Number.integerText_ne_nil _)
      (fun c hc => Number.isScalarChar_of_mem_integerText hc) (readScalar?_integerText n)
  | string s => simpa [write, tokensOf] using Spells.string s .nil
  | array _ ih =>
    rw [write, tokensOf, writeItems_eq_map, itemTokens_eq_map]
    exact .enclosed ih rfl rfl
  | object _ _ ih =>
    rw [write, tokensOf, writeEntries_eq_map, entryTokens_eq_map]
    exact .enclosed (fun entry hentry => .string entry.1 (.punctuation rfl (ih entry hentry)))
      rfl rfl

end Json

end ConfigLang
