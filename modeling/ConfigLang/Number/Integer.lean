import ConfigLang.Number.Power

set_option autoImplicit false

/-! # Integer numerals

An integer numeral is one or more decimal digits behind an optional sign. Main statement: what is
written for an integer reads back (`readInteger?_integerText`). -/

namespace ConfigLang.Number

open scoped CorePower

/-! ## Digits -/

/-- Whether a text is one or more decimal digits. -/
def isDigits (text : List Char) : Bool :=
  !text.isEmpty && text.all Char.isDigit

theorem toNat_of_isDigit {c : Char} (h : c.isDigit = true) : 48 ≤ c.toNat ∧ c.toNat ≤ 57 := by
  simpa [Char.isDigit, UInt32.le_iff_toNat_le] using h

theorem toLower_of_isDigit {c : Char} (h : c.isDigit = true) : c.toLower = c := by
  have hrange := toNat_of_isDigit h
  refine dif_neg fun hupper => ?_
  have hlow : 65 ≤ c.toNat := UInt32.le_iff_toNat_le.mp hupper.1
  omega

/-- The natural that decimal digits stand for. -/
def ofDigits (digits : List Char) : Nat :=
  Nat.ofDigitChars 10 digits 0

/-- The decimal digits of a natural. -/
def digitsOf (n : Nat) : List Char :=
  Nat.toDigits 10 n

theorem ofDigits_digitsOf (n : Nat) : ofDigits (digitsOf n) = n :=
  Nat.ofDigitChars_toDigits (by decide) (by decide)

theorem isDigit_of_mem_digitsOf {n : Nat} {c : Char} (h : c ∈ digitsOf n) : c.isDigit = true :=
  Nat.isDigit_of_mem_toDigits (by decide) (by decide) h

theorem isDigits_digitsOf (n : Nat) : isDigits (digitsOf n) = true := by
  have hne : digitsOf n ≠ [] := by
    have := @Nat.length_toDigits_pos 10 n
    exact List.length_pos_iff.mp this
  simp only [isDigits, Bool.and_eq_true, Bool.not_eq_true', List.isEmpty_eq_false_iff,
    List.all_eq_true]
  exact ⟨hne, fun c hc => isDigit_of_mem_digitsOf hc⟩

/-! ## Signs -/

/-- Whether a numeral is negative, and the numeral without its sign. -/
def splitSign : List Char → Bool × List Char
  | '-' :: rest => (true, rest)
  | '+' :: rest => (false, rest)
  | text => (false, text)

/-- The sign that a number is written with. -/
def signText (negative : Bool) : List Char :=
  if negative then ['-'] else []

def signed (negative : Bool) (n : Nat) : Int :=
  if negative then -(n : Int) else n

/-! ## Integers -/

/-- Whether a text is digits behind an optional sign. -/
def isInteger (text : List Char) : Bool :=
  isDigits (splitSign text).2

/-- The integer of any size that a numeral stands for. -/
def readInteger? (text : List Char) : Option Int :=
  let (negative, digits) := splitSign text
  if isDigits digits then some (signed negative (ofDigits digits)) else none

/-- The numeral of an integer; only a negative one has a sign. -/
def integerText (n : Int) : List Char :=
  signText (n < 0) ++ digitsOf n.natAbs

theorem splitSign_of_head_ne {text : List Char} (h : ∀ c ∈ text.head?, c ≠ '-' ∧ c ≠ '+') :
    splitSign text = (false, text) := by
  unfold splitSign
  split
  next => exact absurd rfl (h '-' rfl).1
  next => exact absurd rfl (h '+' rfl).2
  next => rfl

theorem splitSign_of_isDigit {c : Char} (h : c.isDigit = true) (rest : List Char) :
    splitSign (c :: rest) = (false, c :: rest) := by
  refine splitSign_of_head_ne fun d hd => ?_
  obtain rfl := Option.some.inj hd
  exact ⟨by rintro rfl; exact absurd h (by decide), by rintro rfl; exact absurd h (by decide)⟩

theorem splitSign_digitsOf (n : Nat) : splitSign (digitsOf n) = (false, digitsOf n) := by
  have hdigits := isDigits_digitsOf n
  cases h : digitsOf n with
  | nil => rfl
  | cons c rest =>
    rw [h] at hdigits
    simp only [isDigits, Bool.and_eq_true, List.all_eq_true] at hdigits
    exact splitSign_of_isDigit (hdigits.2 c List.mem_cons_self) rest

theorem splitSign_integerText (n : Int) :
    splitSign (integerText n) = (decide (n < 0), digitsOf n.natAbs) := by
  unfold integerText
  by_cases hn : n < 0
  · rw [decide_eq_true hn]
    rfl
  · rw [decide_eq_false hn]
    exact splitSign_digitsOf _

theorem readInteger?_integerText (n : Int) : readInteger? (integerText n) = some n := by
  rw [readInteger?, splitSign_integerText]
  by_cases hn : n < 0
  · simp only [hn, isDigits_digitsOf, ofDigits_digitsOf, signed, decide_true, if_true]
    congr 1
    omega
  · simp only [hn, isDigits_digitsOf, ofDigits_digitsOf, signed, decide_false, if_true]
    simp only [Bool.false_eq_true, if_false]
    congr 1
    omega

theorem isInteger_integerText (n : Int) : isInteger (integerText n) = true := by
  rw [isInteger, splitSign_integerText]
  exact isDigits_digitsOf _

theorem isDigit_of_mem_isDigits {digits : List Char} (h : isDigits digits = true) {c : Char}
    (hc : c ∈ digits) : c.isDigit = true := by
  rw [isDigits, Bool.and_eq_true, List.all_eq_true] at h
  exact h.2 c hc

theorem splitSign_of_isDigits {digits : List Char} (h : isDigits digits = true) :
    splitSign digits = (false, digits) := by
  cases digits with
  | nil => rfl
  | cons c rest => exact splitSign_of_isDigit (isDigit_of_mem_isDigits h List.mem_cons_self) rest

theorem isInteger_of_isDigits {digits : List Char} (h : isDigits digits = true) :
    isInteger digits = true := by
  rw [isInteger, splitSign_of_isDigits h, h]

theorem readInteger?_of_isDigits {digits : List Char} (h : isDigits digits = true) :
    readInteger? digits = some (ofDigits digits : Int) := by
  rw [readInteger?, splitSign_of_isDigits h]
  simp [h, signed]

/-- An integer numeral holds digits and signs only. -/
theorem isDigit_or_sign_of_mem {text : List Char} (h : isInteger text = true) {c : Char}
    (hc : c ∈ text) : c.isDigit = true ∨ c = '-' ∨ c = '+' := by
  unfold isInteger splitSign at h
  split at h
  · rcases List.mem_cons.mp hc with rfl | hrest
    · exact Or.inr (Or.inl rfl)
    · exact Or.inl (isDigit_of_mem_isDigits h hrest)
  · rcases List.mem_cons.mp hc with rfl | hrest
    · exact Or.inr (Or.inr rfl)
    · exact Or.inl (isDigit_of_mem_isDigits h hrest)
  · exact Or.inl (isDigit_of_mem_isDigits h hc)

theorem digitsOf_ne_nil (n : Nat) : digitsOf n ≠ [] := by
  intro hnil
  have hdigits := isDigits_digitsOf n
  rw [hnil] at hdigits
  exact absurd hdigits (by decide)

theorem integerText_ne_nil (n : Int) : integerText n ≠ [] := by
  simp [integerText, digitsOf_ne_nil]

/-! ## The range of 64 bits -/

/-- The integer of 64 bits, if it is in their range. -/
def int64? (n : Int) : Option Int64 :=
  if -2 ^ (63 : Nat) ≤ n ∧ n < 2 ^ (63 : Nat) then some (Int64.ofInt n) else none

/-- The integer that a numeral stands for, if it is in the range of 64 bits. -/
def readInt64? (text : List Char) : Option Int64 :=
  (readInteger? text).bind int64?

theorem int64?_toInt (n : Int64) : int64? n.toInt = some n := by
  have hlow := n.le_toInt
  have hhigh := n.toInt_lt
  rw [int64?, if_pos ⟨by omega, by omega⟩, Int64.ofInt_toInt]

theorem readInt64?_integerText (n : Int64) : readInt64? (integerText n.toInt) = some n := by
  rw [readInt64?, readInteger?_integerText, Option.bind_some, int64?_toInt]

end ConfigLang.Number
