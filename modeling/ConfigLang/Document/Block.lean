import ConfigLang.Text.Blank

set_option autoImplicit false

/-! # Values that span lines

A value that begins with a bracket or brace goes on, line by line, until as many of them are closed
as are opened, quotes or not. Its lines are trimmed, blank ones are left out. -/

namespace ConfigLang.Document

/-- Occurrences of one character less those of another. -/
def balance (opening closing : Char) (text : List Char) : Int :=
  (text.count opening : Int) - (text.count closing : Int)

/-- Append lines to `text` while more is opened than closed: the whole text, and the lines left. -/
def gatherBlock (opening closing : Char) (text : List Char) :
    List (List Char) → List Char × List (List Char)
  | [] => (text, [])
  | line :: rest =>
    if balance opening closing text ≤ 0 then (text, line :: rest)
    else if (Text.trim line).isEmpty then gatherBlock opening closing text rest
    else gatherBlock opening closing (text ++ '\n' :: Text.trim line) rest

theorem gatherBlock_of_balance {opening closing : Char} {text : List Char}
    (h : balance opening closing text ≤ 0) (lines : List (List Char)) :
    gatherBlock opening closing text lines = (text, lines) := by
  cases lines with
  | nil => rfl
  | cons line rest => rw [gatherBlock, if_pos h]

/-- The whole text of a value that begins with `initial`, and the lines behind it. -/
def captureBlock (initial : List Char) (rest : List (List Char)) :
    List Char × List (List Char) :=
  match initial.head? with
  | some '\x7b' => gatherBlock '\x7b' '\x7d' initial rest
  | some '[' => gatherBlock '[' ']' initial rest
  | _ => (initial, rest)

theorem length_gatherBlock_le (opening closing : Char) (text : List Char)
    (lines : List (List Char)) :
    (gatherBlock opening closing text lines).2.length ≤ lines.length := by
  induction lines generalizing text with
  | nil => exact Nat.le_refl _
  | cons line rest ih =>
    unfold gatherBlock
    split
    · exact Nat.le_refl _
    · split <;> exact Nat.le_succ_of_le (ih _)

theorem length_captureBlock_le (initial : List Char) (rest : List (List Char)) :
    (captureBlock initial rest).2.length ≤ rest.length := by
  unfold captureBlock
  split
  · exact length_gatherBlock_le _ _ _ _
  · exact length_gatherBlock_le _ _ _ _
  · exact Nat.le_refl _

end ConfigLang.Document
