import ConfigLang.Proofs.BlockComment
import ConfigLang.Proofs.Scalar
import ConfigLang.Session

set_option autoImplicit false

/-! # Plain documents

A plain document is a list of section headers and of assignments of scalars, one a line. Parsing its
text takes each stage in turn: comments, included files, headers, equals signs, values that span
lines, literals and writes. Main statement: what the parser builds from the text is what writing the
scalars one after another builds, faults included (`parseText_plainText`). -/

namespace ConfigLang

open Text

/-! ## Stages that leave a text as it is -/

theorem Scan.stripLineFrom_of_cut {s : Quotes} {line : List Char}
    (h : cutWhen? Quotes.step (fun s c => s.outside c && c == '/') s line = none) :
    stripLineFrom s line = line := by
  induction line generalizing s with
  | nil => rfl
  | cons c rest ih =>
    unfold cutWhen? at h
    split at h
    · exact absurd h (by simp)
    next hc =>
      rw [stripLineFrom, if_neg, ih (Option.map_eq_none_iff.mp h)]
      intro hcut
      simp only [Bool.and_eq_true] at hcut
      exact hc (by simp [hcut.1])

/-- A line without a slash outside quotes holds no comment. -/
theorem Scan.stripLineComment_of_cut {line : List Char}
    (h : cutUnquoted? (· == '/') line = none) : stripLineComment line = line :=
  stripLineFrom_of_cut h

namespace Document

/-! ## Names -/

/-- A letter or underscore followed by letters, digits and underscores. -/
structure Name where
  text : List Char
  identifier : isIdentifier text = true

/-- The characters of names. -/
def isNameChar (c : Char) : Bool :=
  c.isAlphanum || c == '_'

theorem isBlank_of_isNameChar {c : Char} (h : isNameChar c = true) : isBlank c = false := by
  rw [isNameChar, Bool.or_eq_true, beq_iff_eq] at h
  rcases h with halphanum | rfl
  · exact isBlank_of_isAlphanum halphanum
  · rfl

namespace Name

theorem isNameChar_of_mem {name : Name} {c : Char} (h : c ∈ name.text) : isNameChar c = true := by
  obtain ⟨text, hid⟩ := name
  cases text with
  | nil => exact absurd h List.not_mem_nil
  | cons first rest =>
    rw [isIdentifier, Bool.and_eq_true, List.all_eq_true] at hid
    rcases List.mem_cons.mp h with rfl | hrest
    · have hfirst := hid.1
      simp only [Bool.or_eq_true] at hfirst
      rcases hfirst with halpha | hunder
      · simp [isNameChar, Char.isAlphanum, halpha]
      · simp [isNameChar, hunder]
    · exact hid.2 c hrest

theorem text_ne_nil (name : Name) : name.text ≠ [] := by
  intro hnil
  have hid := name.identifier
  rw [hnil] at hid
  exact absurd hid (by decide)

theorem trim_text (name : Name) : trim name.text = name.text :=
  trim_eq_self (fun _ hc => isBlank_of_isNameChar (isNameChar_of_mem (List.mem_of_mem_head? hc)))
    fun _ hc => isBlank_of_isNameChar (isNameChar_of_mem (List.mem_of_mem_getLast? hc))

theorem isNameChar_of_mem_head (name : Name) (rest : List Char) :
    ∀ c ∈ (name.text ++ rest).head?, isNameChar c = true := by
  intro c hc
  rw [List.head?_append] at hc
  cases hhead : name.text.head? with
  | none => exact absurd (List.head?_eq_none_iff.mp hhead) name.text_ne_nil
  | some first =>
    rw [hhead, Option.some_or, Option.mem_some_iff] at hc
    exact hc ▸ isNameChar_of_mem (List.mem_of_mem_head? hhead)

/-- The line that gives a key a value. -/
def assigns (key : Name) (value : List Char) : List Char :=
  key.text ++ " = ".toList ++ value

section

variable (key : Name) (value : List Char)

theorem head?_assigns_ne {d : Char} (hd : isNameChar d = false) :
    ∀ c ∈ (key.assigns value).head?, c ≠ d := by
  intro c hc
  rw [assigns, List.append_assoc] at hc
  exact ne_of_class (key.isNameChar_of_mem_head _ c hc) hd

theorem header?_assigns : header? (key.assigns value) = none := by
  rw [header?, between?_of_head_ne (key.head?_assigns_ne value (by decide)), Option.map_none]

/-- The marks that end a search stand neither in a key nor between it and its value. -/
theorem plain_of_mem {c : Char} (hc : c ∈ key.text ++ [' ']) :
    isQuote c = false ∧ c ≠ '/' ∧ c ≠ '=' := by
  rcases List.mem_append.mp hc with hname | hblank
  · have hchar := isNameChar_of_mem hname
    have hdouble := ne_of_class (d := '"') hchar (by decide)
    have hsingle := ne_of_class (d := '\'') hchar (by decide)
    exact ⟨by simp [isQuote, hdouble, hsingle], ne_of_class hchar (by decide),
      ne_of_class hchar (by decide)⟩
  · rw [List.mem_singleton.mp hblank]
    decide

/-- Neither a quote nor a slash stands before a value. -/
theorem lead_of_mem {c : Char} (hc : c ∈ key.text ++ " = ".toList) :
    isQuote c = false ∧ (c == '/') = false := by
  have hsplit : key.text ++ " = ".toList = (key.text ++ [' ']) ++ ['=', ' '] := by simp
  rw [hsplit] at hc
  rcases List.mem_append.mp hc with hplain | hmiddle
  · obtain ⟨hquote, hslash, -⟩ := key.plain_of_mem hplain
    exact ⟨hquote, beq_eq_false_iff_ne.mpr hslash⟩
  · have hcases : c = '=' ∨ c = ' ' := by simpa using hmiddle
    rcases hcases with rfl | rfl <;> decide

theorem span_scan_lead : (({} : Scan.Quotes).scan (key.text ++ " = ".toList)).span? = none :=
  Scan.Quotes.span_scan_of_not_quote rfl fun _ hc => (key.lead_of_mem hc).1

/-- No comment begins in the line if none begins in the value. -/
theorem cutUnquoted?_slash_assigns {value : List Char}
    (h : ∀ s : Scan.Quotes, s.span? = none →
      Scan.cutWhen? Scan.Quotes.step (fun s c => s.outside c && c == '/') s value = none) :
    Scan.cutUnquoted? (· == '/') (key.assigns value) = none := by
  have hnone : Scan.cutWhen? Scan.Quotes.step (fun s c => s.outside c && c == '/') {}
      (key.text ++ " = ".toList) = none :=
    Scan.cutWhen?_eq_none_of_forall (fun c hc => (key.lead_of_mem hc).2) _
  have hvalue := h _ key.span_scan_lead
  rw [Scan.Quotes.scan] at hvalue
  rw [Scan.cutUnquoted?, assigns, Scan.cutWhen?_append hnone, hvalue, Option.map_none]

theorem includeWord_assigns (hkey : key.text ≠ "include".toList) :
    includeWord.isPrefixOf (key.assigns value) = false := by
  rw [← Bool.not_eq_true, List.isPrefixOf_iff_prefix]
  rintro ⟨rest, hrest⟩
  -- the first blank of the line stands behind the key, that of the word behind `include`
  have hblank : ' ' ∉ key.text :=
    fun hmem => ne_of_class (isNameChar_of_mem hmem) (by decide) rfl
  have hsplit : "include".toList ++ ' ' :: rest = key.text ++ ' ' :: ("= ".toList ++ value) := by
    have hword : includeWord = "include".toList ++ [' '] := rfl
    have hmiddle : " = ".toList = ' ' :: "= ".toList := rfl
    rw [hword, assigns, hmiddle, List.append_assoc, List.append_assoc] at hrest
    exact hrest
  have hpieces := congrArg (splitOn ' ') hsplit
  rw [splitOn_append_cons (by decide), splitOn_append_cons hblank] at hpieces
  exact hkey (List.cons.inj hpieces).1.symm

theorem keyValue?_assigns :
    Scan.keyValue? (key.assigns value) = some (key.text, trim value) := by
  have hnone : Scan.cutWhen? Scan.Quotes.step (fun s c => s.outside c && c == '=') {}
      (key.text ++ [' ']) = none :=
    Scan.cutWhen?_eq_none_of_forall
      (fun c hc => beq_eq_false_iff_ne.mpr (key.plain_of_mem hc).2.2) _
  have hspan := Scan.Quotes.span_scan_of_not_quote (s := {}) rfl
    fun c hc => (key.plain_of_mem hc).1
  have hline : key.assigns value = (key.text ++ [' ']) ++ '=' :: (' ' :: value) := by
    simp [assigns]
  have hequals : (Scan.Quotes.scan {} (key.text ++ [' '])).outside '=' = true :=
    Scan.Quotes.outside_of_not_quote hspan rfl
  have hcut : Scan.cutUnquoted? (· == '=') (key.assigns value)
      = some (key.text ++ [' '], ' ' :: value) := by
    have hfound : Scan.cutWhen? Scan.Quotes.step (fun s c => s.outside c && c == '=')
        (Scan.Quotes.scan {} (key.text ++ [' '])) ('=' :: ' ' :: value)
        = some ([], ' ' :: value) := by
      rw [Scan.cutWhen?, hequals]
      rfl
    rw [Scan.Quotes.scan] at hfound
    rw [Scan.cutUnquoted?, hline, Scan.cutWhen?_append hnone, hfound, Option.map_some]
    simp
  have hblank : ∀ c ∈ [' '], isBlank c = true := List.all_eq_true.mp rfl
  rw [Scan.keyValue?, hcut, Option.map_some]
  dsimp only
  rw [trim_append_right hblank, key.trim_text, ← List.singleton_append, trim_append_left hblank]

theorem statement?_assigns :
    statement? (key.assigns value) = .ok (some (String.ofList key.text, trim value)) := by
  have hequals : (key.assigns value).contains '=' = true := by simp [assigns]
  have hne : key.text.isEmpty = false := List.isEmpty_eq_false_iff.mpr key.text_ne_nil
  rw [statement?, if_pos hequals, splitStatement, keyValue?_assigns]
  simp only [hne]
  rfl

end

end Name

/-! ## Headers -/

/-- The names of a section that does not hold defaults. -/
structure Header where
  names : List Name
  nonempty : names ≠ []
  notDefaults : isDefaultsName (['.'].intercalate (names.map Name.text)) = false

namespace Header

/-- The text between the brackets of a header. -/
def text (h : Header) : List Char :=
  ['.'].intercalate (h.names.map Name.text)

def path (h : Header) : List String :=
  h.names.map fun name => String.ofList name.text

theorem isNameChar_or_point_of_mem {h : Header} {c : Char} (hc : c ∈ h.text) :
    isNameChar c = true ∨ c = '.' := by
  rcases mem_intercalate hc with hpoint | ⟨piece, hpiece, hmem⟩
  · exact Or.inr hpoint
  · obtain ⟨name, _, rfl⟩ := List.mem_map.mp hpiece
    exact Or.inl (Name.isNameChar_of_mem hmem)

theorem ne_of_mem_text {h : Header} {c d : Char} (hc : c ∈ h.text) (hname : isNameChar d = false)
    (hpoint : d ≠ '.') : c ≠ d := by
  rcases isNameChar_or_point_of_mem hc with hchar | rfl
  · exact ne_of_class hchar hname
  · exact hpoint.symm

theorem isBlank_of_mem_text {h : Header} {c : Char} (hc : c ∈ h.text) : isBlank c = false := by
  rcases isNameChar_or_point_of_mem hc with hchar | rfl
  · exact isBlank_of_isNameChar hchar
  · rfl

theorem trim_text (h : Header) : trim h.text = h.text :=
  trim_eq_self (fun _ hc => isBlank_of_mem_text (List.mem_of_mem_head? hc))
    fun _ hc => isBlank_of_mem_text (List.mem_of_mem_getLast? hc)

/-- The text of a header is read as its names. -/
theorem ofHeader_text (h : Header) : KeyPath.ofHeader h.text = h.path := by
  have hpieces : splitOn '.' h.text = h.names.map Name.text := by
    apply splitOn_intercalate
    · simp [h.nonempty]
    · intro piece hpiece hpoint
      obtain ⟨name, _, rfl⟩ := List.mem_map.mp hpiece
      exact ne_of_class (Name.isNameChar_of_mem hpoint) (by decide) rfl
  rw [KeyPath.ofHeader, hpieces, List.map_map, path]
  exact List.map_congr_left fun name _ => by rw [Function.comp_apply, Name.trim_text]

/-- The line of a header. -/
def line (h : Header) : List Char :=
  '[' :: (h.text ++ [']'])

theorem header?_line (h : Header) : header? h.line = some h.text := by
  rw [header?, line, between?_append_singleton, Option.map_some, trim_text]

end Header

/-! ## Statements -/

/-- What one line of a plain document says. -/
inductive Statement where
  | enter (h : Header)
  | assign (key : Name) (hkey : key.text ≠ "include".toList) (x : Scalar)

namespace Statement

def line : Statement → List Char
  | .enter h => h.line
  | .assign key _ x => key.text ++ " = ".toList ++ x.literal

/-- What a statement does to a tree and the current section. -/
def run (state : Tree × List String) : Statement → Except Fault (Tree × List String)
  | .enter h => .ok (state.1, h.path)
  | .assign key _ x =>
    (state.1.write state.2 (String.ofList key.text) x.value).map fun tree => (tree, state.2)

theorem newline_not_mem_line (st : Statement) : '\n' ∉ st.line := by
  cases st with
  | enter h =>
    simp only [line, Header.line, List.mem_cons, List.mem_append, List.not_mem_nil, or_false,
      not_or]
    exact ⟨by decide, fun hmem => Header.ne_of_mem_text hmem (by decide) (by decide) rfl,
      by decide⟩
  | assign key hkey x =>
    simp only [line, List.mem_append, not_or]
    exact ⟨⟨fun hmem => ne_of_class (Name.isNameChar_of_mem hmem) (by decide) rfl,
      by decide⟩, x.newline_not_mem_literal⟩

theorem line_ne_nil (st : Statement) : st.line ≠ [] := by
  cases st with
  | enter h => simp [line, Header.line]
  | assign key hkey x => simp [line]

theorem trim_line (st : Statement) : trim st.line = st.line := by
  cases st with
  | enter h => exact trim_enclosed (by decide) (by decide) h.text
  | assign key hkey x =>
    apply trim_eq_self
    · intro c hc
      rw [line, List.append_assoc] at hc
      exact isBlank_of_isNameChar (key.isNameChar_of_mem_head _ c hc)
    · intro c hc
      rw [line, List.getLast?_append] at hc
      cases hlast : x.literal.getLast? with
      | none => exact absurd (List.getLast?_eq_none_iff.mp hlast) x.literal_ne_nil
      | some last =>
        rw [hlast, Option.some_or, Option.mem_some_iff] at hc
        exact hc ▸ x.isBlank_of_getLast_literal last hlast

/-- A slash stands in strings only. -/
theorem cutUnquoted?_slash_line (st : Statement) :
    Scan.cutUnquoted? (· == '/') st.line = none := by
  cases st with
  | enter h =>
    apply Scan.cutWhen?_eq_none_of_forall
    intro c hc
    simp only [line, Header.line, List.mem_cons, List.mem_append, List.not_mem_nil,
      or_false] at hc
    rcases hc with rfl | hmem | rfl
    · rfl
    · simpa using Header.ne_of_mem_text (d := '/') hmem (by decide) (by decide)
    · rfl
  | assign key hkey x => exact key.cutUnquoted?_slash_assigns fun _ hs => x.cutWhen?_slash_literal hs

/-- No line holds a comment. -/
theorem stripLineComment_line (st : Statement) : Scan.stripLineComment st.line = st.line :=
  Scan.stripLineComment_of_cut st.cutUnquoted?_slash_line

theorem includeWord_line (st : Statement) : includeWord.isPrefixOf st.line = false := by
  cases st with
  | enter h => rfl
  | assign key hkey x => exact key.includeWord_assigns x.literal hkey

end Statement

/-! ## Reading one line -/

/-- A literal does not go on below its line. -/
theorem captureBlock_literal (x : Scalar) (rest : List (List Char)) :
    captureBlock x.literal rest = (x.literal, rest) := by
  unfold captureBlock
  split
  next hhead => exact absurd rfl (x.head_literal_ne (Or.inr (Or.inr rfl)) _ hhead)
  next hhead => exact absurd rfl (x.head_literal_ne (Or.inr (Or.inl rfl)) _ hhead)
  next => rfl

/-- Reading the line of a statement does what the statement says. -/
theorem readLines_line (env : Environment) (b : Building) (st : Statement)
    (rest : List (List Char)) :
    readLines env b (st.line :: rest)
      = match st.run (b.tree, b.sectionPath) with
        | .ok (tree, path) => readLines env { b with tree := tree, sectionPath := path } rest
        | .error f => .stopped b f := by
  have hne : st.line.isEmpty = false := List.isEmpty_eq_false_iff.mpr st.line_ne_nil
  rw [readLines]
  simp only [st.trim_line, hne, Bool.false_eq_true, if_false]
  cases st with
  | enter h =>
    have hheader : header? (Statement.enter h).line = some h.text := h.header?_line
    have hdefaults : isDefaultsName h.text = false := h.notDefaults
    rw [hheader]
    simp only [hdefaults, Bool.false_eq_true, if_false]
    rw [Building.enter, h.ofHeader_text]
    rfl
  | assign key hkey x =>
    have hresolve : (b.scope env).resolve x.literal = .ok x.value := x.resolveBy_literal _ _
    have hassign : b.assign env (String.ofList key.text) x.literal
        = (b.tree.write b.sectionPath (String.ofList key.text) x.value).map
            fun tree => { b with tree := tree } := by
      rw [Building.assign, hresolve]
      show (b.tree.write b.sectionPath (String.ofList key.text) x.value >>= _) = _
      cases b.tree.write b.sectionPath (String.ofList key.text) x.value <;> rfl
    have hheader : header? (Statement.assign key hkey x).line = none := key.header?_assigns x.literal
    have hstatement : statement? (Statement.assign key hkey x).line
        = .ok (some (String.ofList key.text, x.literal)) :=
      (key.statement?_assigns x.literal).trans (by rw [x.trim_literal])
    rw [hheader, hstatement]
    simp only [captureBlock_literal, hassign, Statement.run]
    cases b.tree.write b.sectionPath (String.ofList key.text) x.value <;> rfl

/-- Reading the lines of statements runs these from left to right. -/
theorem readLines_lines (env : Environment) (b : Building) (statements : List Statement) :
    (readLines env b (statements.map Statement.line)).result
      = (statements.foldlM Statement.run (b.tree, b.sectionPath)).map
          fun state => { b with tree := state.1, sectionPath := state.2 } := by
  induction statements generalizing b with
  | nil =>
    rw [List.map_nil, readLines]
    rfl
  | cons st rest ih =>
    rw [List.map_cons, readLines_line, List.foldlM_cons]
    cases st.run (b.tree, b.sectionPath) with
    | error f => rfl
    | ok state => exact ih _

/-! ## Reading a document -/

/-- The text of a plain document. -/
def plainText (statements : List Statement) : List Char :=
  ['\n'].intercalate (statements.map Statement.line)

/-- The lines of a plain document are those of its statements; without a statement there is one
    blank line. -/
theorem uncommentedLines_plainText {statements : List Statement}
    (h : ¬ ['/', '*'] <:+: plainText statements) :
    Scan.uncommentedLines (plainText statements)
      = if statements.isEmpty then [[]] else statements.map Statement.line := by
  rw [Scan.uncommentedLines, Scan.stripBlocks_of_no_opening h, plainText]
  cases statements with
  | nil => rfl
  | cons st rest =>
    rw [splitOn_intercalate (by simp) (by simp [Statement.newline_not_mem_line])]
    simp [Function.comp_def, Statement.stripLineComment_line]

theorem applyDefaults_of_nil {b : Building} (h : b.defaults = {}) : b.applyDefaults = .done b := by
  obtain ⟨tree, path, defaults⟩ := b
  subst h
  rfl

/-- A blank line builds what no line builds. -/
theorem build_blank (env : Environment) : build env [[]] = build env [] := by
  have hblank : readLines env {} [[]] = readLines env {} [] := by
    conv => lhs; rw [readLines]
    rfl
  rw [build, hblank, build]

theorem result_build (env : Environment) (statements : List Statement) :
    (build env (statements.map Statement.line)).result
      = (statements.foldlM Statement.run ({}, [])).map
          fun state => { tree := state.1, sectionPath := state.2 } := by
  have hread := readLines_lines env {} statements
  rw [build]
  cases hlines : readLines env {} (statements.map Statement.line) with
  | stopped b f =>
    rw [hlines] at hread
    exact hread
  | done b =>
    rw [hlines] at hread
    have hdefaults : b.defaults = {} := by
      cases hrun : statements.foldlM Statement.run ({}, []) with
      | error f => simp [hrun, Outcome.result, Except.map] at hread
      | ok state =>
        simp only [hrun, Outcome.result, Except.map, Except.ok.injEq] at hread
        rw [hread]
    rw [← hread]
    exact congrArg Outcome.result (applyDefaults_of_nil hdefaults)

/-- Parsing the text of a plain document writes its scalars one after another. -/
theorem parseText_plainText (store : Files.Store) (env : Environment)
    (statements : List Statement) (h : ¬ ['/', '*'] <:+: plainText statements) :
    parseText store env (plainText statements)
      = (statements.foldlM Statement.run ({}, [])).map Prod.fst := by
  have hlines : ∀ line ∈ statements.map Statement.line, includeWord.isPrefixOf (trim line) = false := by
    intro line hline
    obtain ⟨st, _, rfl⟩ := List.mem_map.mp hline
    rw [st.trim_line]
    exact st.includeWord_line
  have hexpand : ∀ base, expandIncludes store base [] (Scan.uncommentedLines (plainText statements))
      = .ok (if statements.isEmpty then [[]] else statements.map Statement.line) := by
    intro base
    rw [uncommentedLines_plainText h]
    split
    · exact expandIncludes_of_plain store base [] (by decide)
    · have htrim : (statements.map Statement.line).map trim = statements.map Statement.line := by
        rw [List.map_map]
        exact List.map_congr_left fun st _ => st.trim_line
      rw [expandIncludes_of_plain store base [] hlines, htrim]
  have hbuild : build env (if statements.isEmpty then [[]] else statements.map Statement.line)
      = build env (statements.map Statement.line) := by
    cases statements with
    | nil => exact build_blank env
    | cons st rest => rfl
  rw [parseText_eq, hexpand]
  simp only [Except.bind]
  rw [hbuild, result_build]
  cases statements.foldlM Statement.run ({}, []) <;> rfl

/-- A header, and a string that looks like a header, a comment and a quote. -/
def lookalikes : List Statement :=
  [.enter ⟨[⟨['a'], rfl⟩], by decide, by decide⟩,
    .assign ⟨['k'], rfl⟩ (by simp) (.string "[x] // \"")]

theorem parseText_lookalikes :
    plainText lookalikes = "[a]\nk = \"[x] // \\\"\"".toList
      ∧ ¬ ['/', '*'] <:+: plainText lookalikes
      ∧ parseText {} {} (plainText lookalikes)
          = .ok ⟨[("a", .object [("k", .string "[x] // \"")])]⟩ := by
  have hplain : ¬ ['/', '*'] <:+: plainText lookalikes := by decide +kernel
  refine ⟨by decide +kernel, hplain, ?_⟩
  rw [parseText_plainText {} {} lookalikes hplain]
  rfl

end Document

end ConfigLang
