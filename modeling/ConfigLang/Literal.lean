import ConfigLang.Fault.Basic
import ConfigLang.Json.Reader
import ConfigLang.Scan.Cut

set_option autoImplicit false

/-! # Literals

A text either describes a value by itself or names one. This file tells the two apart and reads the
first kind: the three words, quoted strings, numbers, arrays and JSON objects; any other text stands
for itself as a string. An array is read down to the texts of its items. Main statement: the items
are shorter than the array (`Literal.length_lt_of_ofText`), so reading them comes to an end. -/

namespace ConfigLang

/-! ## Operators -/

/-- The characters that are operators outside quotes. -/
def isOperator (c : Char) : Bool :=
  c == '+' || c == '-' || c == '*' || c == '/' || c == '%'

def hasOperator (text : List Char) : Bool :=
  (Scan.cutUnquoted? isOperator text).isSome

theorem hasOperator_of_forall {text : List Char} (h : ∀ c ∈ text, isOperator c = false) :
    hasOperator text = false := by
  rw [hasOperator, Scan.cutUnquoted?, Scan.cutWhen?_eq_none_of_forall h]
  rfl

/-! ## Classes of texts -/

def isBracketed (text : List Char) : Bool :=
  (Text.between? '[' ']' text).isSome

def isBraced (text : List Char) : Bool :=
  (Text.between? '\x7b' '\x7d' text).isSome

/-- The value of the words null, true and false in any case. -/
def wordValue? (text : List Char) : Option Value :=
  let word := String.ofList (text.map Char.toLower)
  if word = "null" then some .null
  else if word = "true" then some (.bool true)
  else if word = "false" then some (.bool false)
  else none

/-- The three words begin with three letters. -/
theorem wordValue?_of_head_ne {c : Char} {rest : List Char}
    (h : c.toLower ∉ ['n', 't', 'f']) : wordValue? (c :: rest) = none := by
  have hne : ∀ (d : Char) (word : List Char), d ∈ ['n', 't', 'f'] →
      String.ofList ((c :: rest).map Char.toLower) ≠ String.ofList (d :: word) := by
    intro d word hd heq
    have hhead := List.head_eq_of_cons_eq (String.ofList_injective heq)
    exact h (hhead ▸ hd)
  unfold wordValue?
  rw [if_neg (hne 'n' ['u', 'l', 'l'] (by decide)), if_neg (hne 't' ['r', 'u', 'e'] (by decide)),
    if_neg (hne 'f' ['a', 'l', 's', 'e'] (by decide))]

/-- Whether a text describes a value by itself, with neither operators nor names to look up. -/
def isSimpleLiteral (text : List Char) : Bool :=
  let trimmed := Text.trim text
  ((Text.unquoted? trimmed).isSome && !hasOperator trimmed)
    || isBracketed trimmed || isBraced trimmed
    || (wordValue? trimmed).isSome || (Number.readFloat? trimmed).isSome

/-- A text in brackets describes a value by itself. -/
theorem isSimpleLiteral_of_bracketed {text inner : List Char}
    (h : Text.trim text = '[' :: (inner ++ [']'])) : isSimpleLiteral text = true := by
  simp [isSimpleLiteral, isBracketed, h, Text.between?_append_singleton]

/-- Whether a text is a letter or underscore followed by letters, digits and underscores. -/
def isIdentifier : List Char → Bool
  | [] => false
  | c :: rest => (c.isAlpha || c == '_') && rest.all fun d => d.isAlphanum || d == '_'

/-- Whether a text is to be looked up. -/
def isReference (text : List Char) : Bool :=
  !isSimpleLiteral text && (text.contains '.' || isIdentifier text)

theorem isReference_of_simple {text : List Char} (h : isSimpleLiteral text = true) :
    isReference text = false := by
  rw [isReference, h]
  rfl

/-! ## Numbers -/

/-- The number that a text stands for: a float if it has a point or an exponent or is an integer
    beyond 64 bits, else an integer. -/
def numberValue? (text : List Char) : Option Value :=
  if text.any fun c => c == '.' || c == 'e' || c == 'E' then
    (Number.readFloat? text).map .float
  else
    match Number.readInt64? text with
    | some n => some (.int n)
    | none =>
      if Number.isInteger text then (Number.readFloat? text).map .float else none

/-! ## Arrays -/

/-- What stands between the brackets of an array, or the whole text if these are missing. -/
def bracketContent (text : List Char) : List Char :=
  (Text.between? '[' ']' text).getD text

/-- The texts of the items of an array. -/
def itemTexts (text : List Char) : List (List Char) :=
  let pieces := Scan.splitTopLevel ',' (Text.joinLines (Text.trim (bracketContent text)))
  (pieces.map Text.trim).filter (!·.isEmpty)

theorem length_bracketContent_lt {text : List Char} (h : isBracketed text = true) :
    (bracketContent text).length < text.length := by
  obtain ⟨inner, hinner⟩ := Option.isSome_iff_exists.mp h
  have := Text.length_between? hinner
  simp only [bracketContent, hinner, Option.getD_some]
  omega

theorem length_lt_of_mem_itemTexts {text item : List Char} (h : isBracketed text = true)
    (hitem : item ∈ itemTexts text) : item.length < text.length := by
  simp only [itemTexts, List.mem_filter, List.mem_map] at hitem
  obtain ⟨⟨piece, hpiece, rfl⟩, -⟩ := hitem
  calc (Text.trim piece).length
      ≤ piece.length := Text.length_trim_le piece
    _ ≤ (Text.joinLines (Text.trim (bracketContent text))).length :=
        Scan.length_le_of_mem_splitTopLevel hpiece
    _ ≤ (Text.trim (bracketContent text)).length := Text.length_joinLines_le _
    _ ≤ (bracketContent text).length := Text.length_trim_le _
    _ < text.length := length_bracketContent_lt h

/-! ## All literals -/

/-- A literal with the items of an array still to be read. -/
inductive Literal where
  | value (v : Value)
  | array (items : List (List Char))

namespace Literal

/-- The literal that a trimmed text is. -/
def ofTrimmed (text : List Char) : Except Fault Literal :=
  match wordValue? text, Text.unquoted? text with
  | some v, _ => .ok (.value v)
  | none, some inner => .ok (.value (.string (String.ofList (Text.unescape inner))))
  | none, none =>
    if isBracketed text then .ok (.array (itemTexts text))
    else if isBraced text then
      match Json.read? text with
      | some v => .ok (.value v)
      | none => .error (.malformed (.notJson (String.ofList text)))
    else .ok (.value ((numberValue? text).getD (.string (String.ofList text))))

/-- The literal that a text is, blanks around it aside. -/
def ofText (text : List Char) : Except Fault Literal :=
  ofTrimmed (Text.trim text)

/-- A text in brackets is an array. -/
theorem ofText_of_bracketed {text inner : List Char} (h : Text.trim text = '[' :: (inner ++ [']'])) :
    ofText text = .ok (.array (itemTexts ('[' :: (inner ++ [']'])))) := by
  have hbracketed : isBracketed ('[' :: (inner ++ [']'])) = true := by
    rw [isBracketed, Text.between?_append_singleton, Option.isSome_some]
  have hword : wordValue? ('[' :: (inner ++ [']'])) = none := wordValue?_of_head_ne (by decide)
  have hquoted : Text.unquoted? ('[' :: (inner ++ [']'])) = none := by
    rw [Text.unquoted?, Text.between?_of_head_ne (by simp), Text.between?_of_head_ne (by simp)]
  rw [ofText, h, ofTrimmed, hword, hquoted]
  simp only [hbracketed, if_true]

theorem eq_itemTexts_of_ofText {text : List Char} {items : List (List Char)}
    (h : ofText text = .ok (.array items)) :
    isBracketed (Text.trim text) = true ∧ items = itemTexts (Text.trim text) := by
  unfold ofText ofTrimmed at h
  split at h
  · simp at h
  · simp at h
  · split at h
    next hbracketed =>
      simp only [Except.ok.injEq, array.injEq] at h
      exact ⟨hbracketed, h.symm⟩
    next =>
      split at h
      · split at h <;> simp at h
      · simp at h

theorem length_lt_of_ofText {text item : List Char} {items : List (List Char)}
    (h : ofText text = .ok (.array items)) (hitem : item ∈ items) : item.length < text.length := by
  obtain ⟨hbracketed, rfl⟩ := eq_itemTexts_of_ofText h
  have := length_lt_of_mem_itemTexts hbracketed hitem
  have := Text.length_trim_le text
  omega

/-- Finish a literal, where `resolveItem` gives the values of the items of an array. -/
def finish (literal : Literal) (resolveItem : List Char → Except Fault Value) :
    Except Fault Value :=
  match literal with
  | .value v => .ok v
  | .array items => (items.mapM resolveItem).map .array

end Literal

end ConfigLang
