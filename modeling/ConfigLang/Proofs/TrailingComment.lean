import ConfigLang.Proofs.BetweenQuotes
import ConfigLang.Proofs.PlainDocument

set_option autoImplicit false

/-! # Comments at the ends of lines

A line comment begins behind a string only if the scanner has seen the string end. It takes the first
quote that stands behind no backslash for the end, so a string that itself ends in a backslash goes on
into the comment. Main statement: behind every other string a comment changes nothing
(`parseText_commented`); behind such a string none begins (`stripLineComment_backslash`). -/

namespace ConfigLang

open Text

namespace Scan

/-! ## Removing a comment -/

/-- Behind a text without a slash outside quotes, the removal goes on. -/
theorem stripLineFrom_append {s : Quotes} {line : List Char}
    (h : cutWhen? Quotes.step (fun s c => s.outside c && c == '/') s line = none)
    (rest : List Char) : stripLineFrom s (line ++ rest) = line ++ stripLineFrom (s.scan line) rest := by
  induction line generalizing s with
  | nil => rfl
  | cons c line ih =>
    unfold cutWhen? at h
    split at h
    · exact absurd h (by simp)
    next hc =>
      rw [List.cons_append, stripLineFrom, if_neg, ih (Option.map_eq_none_iff.mp h)]
      · rfl
      · intro hcut
        rw [Bool.and_eq_true] at hcut
        exact hc hcut.1

/-- Outside quotes two slashes begin a comment. -/
theorem stripLineFrom_slashes {s : Quotes} (hs : s.span? = none) (comment : List Char) :
    stripLineFrom s ('/' :: '/' :: comment) = [] := by
  rw [stripLineFrom, Quotes.outside_of_not_quote hs rfl]
  rfl

theorem stripLineFrom_of_hides {s : Quotes} {line : List Char} (h : s.hides line = true) :
    stripLineFrom s line = line :=
  stripLineFrom_of_cut (cutWhen?_of_hides h (· == '/'))

end Scan

namespace Document

/-! ## Lines with comments -/

/-- A statement with a comment behind it, unless it leaves a quote open. -/
structure CommentedLine where
  statement : Statement
  comment? : Option (List Char)
  one_line : ∀ comment ∈ comment?, '\n' ∉ comment
  closed : ∀ comment ∈ comment?, (({} : Scan.Quotes).scan statement.line).span? = none

/-- What stands behind a statement: nothing, or a blank and a comment. -/
def behindStatement : Option (List Char) → List Char
  | none => []
  | some comment => ' ' :: '/' :: '/' :: comment

namespace CommentedLine

def text (l : CommentedLine) : List Char :=
  l.statement.line ++ behindStatement l.comment?

theorem newline_not_mem_text (l : CommentedLine) : '\n' ∉ l.text := by
  rw [text, List.mem_append, not_or]
  refine ⟨l.statement.newline_not_mem_line, ?_⟩
  cases hcomment : l.comment? with
  | none => exact List.not_mem_nil
  | some comment =>
    have hline := l.one_line comment hcomment
    simpa [behindStatement] using hline

/-- Without its comment a line is the line of its statement, and blanks. -/
theorem trim_stripLineComment_text (l : CommentedLine) :
    trim (Scan.stripLineComment l.text) = l.statement.line := by
  have hslash := l.statement.cutUnquoted?_slash_line
  have hblank : ∀ c ∈ [' '], isBlank c = true := by
    intro c hc
    obtain rfl := List.mem_singleton.mp hc
    rfl
  rw [Scan.stripLineComment, text, Scan.stripLineFrom_append hslash]
  cases hcomment : l.comment? with
  | none => rw [behindStatement, Scan.stripLineFrom, List.append_nil, l.statement.trim_line]
  | some comment =>
    have hspan := l.closed comment hcomment
    have hstrip : Scan.stripLineFrom (({} : Scan.Quotes).scan l.statement.line)
        (behindStatement (some comment)) = [' '] := by
      rw [behindStatement, Scan.stripLineFrom, if_neg (by simp),
        Scan.stripLineFrom_slashes (Scan.Quotes.span_step_of_not_quote hspan rfl)]
    rw [hstrip, trim_append_right hblank, l.statement.trim_line]

end CommentedLine

/-- The text of a plain document with comments behind its lines. -/
def commentedText (lines : List CommentedLine) : List Char :=
  ['\n'].intercalate (lines.map CommentedLine.text)

theorem trim_uncommentedLines_commentedText {lines : List CommentedLine} (hne : lines ≠ [])
    (h : ¬ ['/', '*'] <:+: commentedText lines) :
    (Scan.uncommentedLines (commentedText lines)).map trim
      = (lines.map CommentedLine.statement).map Statement.line := by
  rw [Scan.uncommentedLines, Scan.stripBlocks_of_no_opening h, commentedText,
    splitOn_intercalate (by simpa using hne) (by simp [CommentedLine.newline_not_mem_text])]
  simp [Function.comp_def, CommentedLine.trim_stripLineComment_text]

/-- Comments behind the lines of a plain document say nothing. -/
theorem parseText_commentedText (store : Files.Store) (env : Environment)
    {lines : List CommentedLine} (hne : lines ≠ []) (h : ¬ ['/', '*'] <:+: commentedText lines) :
    parseText store env (commentedText lines)
      = ((lines.map CommentedLine.statement).foldlM Statement.run ({}, [])).map Prod.fst := by
  have hlines := trim_uncommentedLines_commentedText hne h
  have hinclude : ∀ line ∈ Scan.uncommentedLines (commentedText lines),
      includeWord.isPrefixOf (trim line) = false := by
    intro line hline
    have hmem := List.mem_map_of_mem (f := trim) hline
    rw [hlines, List.mem_map] at hmem
    obtain ⟨st, -, hst⟩ := hmem
    rw [← hst]
    exact st.includeWord_line
  rw [parseText_of_plain store env hinclude, hlines, result_build]
  cases (lines.map CommentedLine.statement).foldlM Statement.run ({}, []) <;> rfl

/-! ## Strings -/

/-- Behind a string that does not end in a backslash no quote is open. -/
theorem span_scan_string (key : Name) {s : String} (hs : s.toList.getLast? ≠ some '\\') :
    (({} : Scan.Quotes).scan (key.assigns (quote s.toList))).span? = none := by
  rw [Name.assigns, Scan.Quotes.scan_append]
  exact Scan.Quotes.span_scan_quote key.span_scan_lead hs

/-- A line that gives a key a string, with or without a comment. -/
def stringLine (key : Name) (hkey : key.text ≠ "include".toList) {s : String}
    (hs : s.toList.getLast? ≠ some '\\') (comment? : Option (List Char))
    (hline : ∀ comment ∈ comment?, '\n' ∉ comment) : CommentedLine where
  statement := .assign key hkey (.string s)
  comment? := comment?
  one_line := hline
  closed := fun _ _ => span_scan_string key hs

theorem parseText_stringLine (store : Files.Store) (env : Environment) {key : Name}
    (hkey : key.text ≠ "include".toList) {s : String} (hs : s.toList.getLast? ≠ some '\\')
    {comment? : Option (List Char)} (hline : ∀ comment ∈ comment?, '\n' ∉ comment)
    (hblock : ¬ ['/', '*'] <:+: (stringLine key hkey hs comment? hline).text) :
    parseText store env (stringLine key hkey hs comment? hline).text
      = .ok ⟨[(String.ofList key.text, .string s)]⟩ := by
  have hone : commentedText [stringLine key hkey hs comment? hline]
      = (stringLine key hkey hs comment? hline).text := List.intercalate_singleton
  rw [← hone] at hblock ⊢
  rw [parseText_commentedText store env (List.cons_ne_nil _ _) hblock]
  rfl

/-- Behind a string that does not end in a backslash a comment changes nothing. -/
theorem parseText_commented (store : Files.Store) (env : Environment) {key : Name}
    (hkey : key.text ≠ "include".toList) {s : String} (hs : s.toList.getLast? ≠ some '\\')
    {comment : List Char} (hline : '\n' ∉ comment)
    (hblock : ¬ ['/', '*'] <:+: key.assigns (quote s.toList) ++ " //".toList ++ comment) :
    parseText store env (key.assigns (quote s.toList) ++ " //".toList ++ comment)
        = parseText store env (key.assigns (quote s.toList))
      ∧ parseText store env (key.assigns (quote s.toList))
        = .ok ⟨[(String.ofList key.text, .string s)]⟩ := by
  have hsome : ∀ c ∈ some comment, '\n' ∉ c := fun c hc => Option.some.inj hc ▸ hline
  have hnone : ∀ c ∈ (none : Option (List Char)), '\n' ∉ c := fun c hc => absurd hc (by simp)
  have hwith : key.assigns (quote s.toList) ++ " //".toList ++ comment
      = (stringLine key hkey hs (some comment) hsome).text := by
    rw [List.append_assoc]
    rfl
  have hwithout : key.assigns (quote s.toList) = (stringLine key hkey hs none hnone).text :=
    (List.append_nil _).symm
  have hplain : ¬ ['/', '*'] <:+: key.assigns (quote s.toList) := by
    rw [List.append_assoc] at hblock
    exact fun hin => hblock (hin.trans (List.prefix_append _ _).isInfix)
  rw [hwith] at hblock
  rw [hwithout] at hplain
  rw [hwith, hwithout, parseText_stringLine store env hkey hs hsome hblock,
    parseText_stringLine store env hkey hs hnone hplain]
  exact ⟨rfl, rfl⟩

/-- A string with quotes and a slash in it, and a comment that looks like another string. -/
theorem parseText_commented_quotes :
    let key : Name := ⟨['k'], rfl⟩
    key.assigns (quote "a\\\" // b".toList) ++ " //".toList ++ "\" // c".toList
        = "k = \"a\\\\\\\" // b\" //\" // c".toList
      ∧ parseText {} {} (key.assigns (quote "a\\\" // b".toList) ++ " //".toList ++ "\" // c".toList)
        = .ok ⟨[("k", .string "a\\\" // b")]⟩ := by
  refine ⟨by decide +kernel, ?_⟩
  obtain ⟨hsame, htree⟩ := @parseText_commented {} {} ⟨['k'], rfl⟩ (by decide) "a\\\" // b"
    (by decide) "\" // c".toList (by decide) (by decide +kernel)
  rw [hsame, htree]

/-! ## Strings that end in a backslash -/

/-- Behind a string that ends in a backslash no comment begins before the next double quote. -/
theorem stripLineComment_backslash (key : Name) {s : String} (hs : s.toList.getLast? = some '\\')
    {comment : List Char} (hquote : '"' ∉ comment) :
    Scan.stripLineComment (key.assigns (quote s.toList) ++ ' ' :: '/' :: '/' :: comment)
      = key.assigns (quote s.toList) ++ ' ' :: '/' :: '/' :: comment := by
  have hslash : Scan.cutUnquoted? (· == '/') (key.assigns (quote s.toList)) = none :=
    key.cutUnquoted?_slash_assigns fun _ hspan =>
      Scan.cutWhen?_of_hides (Scan.Quotes.hides_quote hspan s.toList) (· == '/')
  have hspan : (({} : Scan.Quotes).scan (key.assigns (quote s.toList))).span? = some '"' := by
    rw [Name.assigns, Scan.Quotes.scan_append]
    exact Scan.Quotes.span_scan_quote_open key.span_scan_lead hs
  have hbehind : '"' ∉ ' ' :: '/' :: '/' :: comment := by simpa using hquote
  rw [Scan.stripLineComment, Scan.stripLineFrom_append hslash,
    Scan.stripLineFrom_of_hides (Scan.Quotes.hides_in_span hspan hbehind).1]

/-- The quote behind the last backslash does not end the string, and the comment becomes part of it. -/
theorem parseText_commented_backslash :
    let line := Name.assigns ⟨['k'], rfl⟩ (quote ['\\'])
    line = "k = \"\\\\\"".toList
      ∧ parseText {} {} line = .ok ⟨[("k", .string "\\")]⟩
      ∧ parseText {} {} (line ++ " //c".toList) = .ok ⟨[("k", .string "\"\\\\\" //c")]⟩ := by
  have hplain : ∀ text ∈ ["k = \"\\\\\"", "k = \"\\\\\" //c"],
      ∀ line ∈ Scan.uncommentedLines text.toList, includeWord.isPrefixOf (trim line) = false := by
    decide +kernel
  intro line
  have hline : line = "k = \"\\\\\"".toList := rfl
  have hcommented : line ++ " //c".toList = "k = \"\\\\\" //c".toList := rfl
  refine ⟨hline, ?_, ?_⟩
  · rw [hline, parseText_of_plain {} {} (hplain _ (by simp))]
    with_unfolding_all rfl
  · rw [hcommented, parseText_of_plain {} {} (hplain _ (by simp))]
    with_unfolding_all rfl

end Document

end ConfigLang
