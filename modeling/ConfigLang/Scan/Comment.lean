import ConfigLang.Scan.Quotes
import ConfigLang.Text.Split

set_option autoImplicit false

/-! # Comments

A block comment runs to the nearest end mark, over line breaks and whatever the quotes around it;
one that never ends is no comment. Block comments are removed from a whole document first. A line
comment begins at two slashes of which the first stands outside quotes, and runs to the end of its
line. -/

namespace ConfigLang.Scan

/-! ## Block comments -/

/-- What follows the nearest end of a block comment. -/
def behindBlock? : List Char → Option (List Char)
  | [] => none
  | '*' :: '/' :: rest => some rest
  | _ :: rest => behindBlock? rest

theorem length_behindBlock? {text rest : List Char} (h : behindBlock? text = some rest) :
    rest.length < text.length := by
  fun_induction behindBlock? text with
  | case1 => simp at h
  | case2 rest' =>
    simp only [Option.some.injEq] at h
    subst h
    simp only [List.length_cons]
    omega
  | case3 c rest' _ ih =>
    have := ih h
    simp only [List.length_cons]
    omega

/-- Remove every block comment. -/
def stripBlocks : List Char → List Char
  | [] => []
  | '/' :: '*' :: rest =>
    match _h : behindBlock? rest with
    | some after => stripBlocks after
    | none => '/' :: '*' :: rest
  | c :: rest => c :: stripBlocks rest
termination_by text => text.length
decreasing_by
  · have := length_behindBlock? _h
    simp only [List.length_cons]
    omega
  · simp

/-! ## Line comments -/

/-- Remove the line comment of what is left of a line. -/
def stripLineFrom (s : Quotes) : List Char → List Char
  | [] => []
  | c :: rest =>
    if s.outside c && c == '/' && rest.head? == some '/' then []
    else c :: stripLineFrom (s.step c) rest

theorem prefix_stripLineFrom (s : Quotes) (line : List Char) : stripLineFrom s line <+: line := by
  induction line generalizing s with
  | nil => exact List.prefix_refl []
  | cons c rest ih =>
    rw [stripLineFrom]
    split
    · exact List.nil_prefix
    · exact List.prefix_cons_inj c |>.mpr (ih _)

/-- Remove the line comment of a line. -/
def stripLineComment (line : List Char) : List Char :=
  stripLineFrom {} line

/-- The lines of a text, less its comments. -/
def uncommentedLines (text : List Char) : List (List Char) :=
  (Text.splitOn '\n' (stripBlocks text)).map stripLineComment

/-- Removing line comments shortens lines at their ends only. -/
theorem infix_of_mem_uncommentedLines {text line : List Char} (hblocks : stripBlocks text = text)
    (h : line ∈ uncommentedLines text) : line <:+: text := by
  rw [uncommentedLines, hblocks] at h
  obtain ⟨raw, hraw, rfl⟩ := List.mem_map.mp h
  exact (prefix_stripLineFrom _ raw).isInfix.trans (Text.infix_of_mem_splitOn hraw)

end ConfigLang.Scan
