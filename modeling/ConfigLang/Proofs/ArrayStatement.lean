import ConfigLang.Proofs.ArrayLayout
import ConfigLang.Proofs.Continuation

set_option autoImplicit false

/-! # Assigning an array

A statement that gives a key an array may go on for several lines, some of which look like headers or
say nothing by themselves. Main statement: however the array is laid out, the statement writes the
array to its key and reading goes on behind it, so that a document says the same as with the array on
one line (`parseText_layout`). -/

namespace ConfigLang.Document

open Text

/-! ## The lines of a layout -/

/-- The lines of an array in some layout: the first begins with its bracket, none is taken for an
    include or for a comment, and brackets are open before each of the others. -/
structure ArrayLines (first : List Char) (later : List (List Char)) : Prop where
  head : ∃ tail, first = '[' :: tail
  newline_not_mem : ∀ line ∈ first :: later, '\n' ∉ line
  undisturbed : ∀ line ∈ first :: later,
    Scan.cutWhen? Scan.Quotes.step Scan.disturbs {} line = none
  opens : ∀ front line back, later = front ++ line :: back →
    0 < balance '[' ']' (first ++ front.flatMap ('\n' :: ·))
  closes : balance '[' ']' (first ++ later.flatMap ('\n' :: ·)) = 0

theorem arrayLines_of_layout {items : List Nested} {text first : List Char} {later : List (List Char)}
    (h : Layout (.array items) text) (hlines : splitOn '\n' text = first :: later) :
    ArrayLines first later := by
  obtain ⟨inner, rfl, -, hbalanced, -⟩ := h.exists_inner fun _ _ _ htext => htext.holds
  have htext : '[' :: (inner ++ [']']) = first ++ later.flatMap ('\n' :: ·) := by
    rw [← intercalate_cons_flatMap, ← hlines, intercalate_splitOn]
  obtain ⟨tail, rfl⟩ : ∃ tail, first = '[' :: tail := by
    cases first with
    | nil =>
      cases later with
      | nil => exact absurd htext (by simp)
      | cons line rest => exact absurd (List.cons.inj htext).1 (by decide)
    | cons c tail => exact ⟨tail, by rw [(List.cons.inj htext).1]⟩
  refine ⟨⟨tail, rfl⟩, fun line hline => ?_, ?_, ?_, ?_⟩
  · exact not_mem_of_mem_splitOn (hlines ▸ hline)
  · rw [← hlines]
    apply Scan.Tidy.of_mem_lines
    rw [intercalate_splitOn]
    exact h.holds.1.tidy
  · rintro front line back rfl
    have hsplit : '[' :: (inner ++ [']'])
        = ('[' :: tail ++ front.flatMap ('\n' :: ·)) ++ '\n' :: (line ++ back.flatMap ('\n' :: ·)) := by
      rw [htext]
      simp
    refine hbalanced.open_bracketed ⟨_, hsplit.symm⟩ (by simp) fun heq => ?_
    have hlength := congrArg List.length (heq.trans hsplit)
    simp only [List.length_append, List.length_cons] at hlength
    omega
  · rw [← htext]
    exact hbalanced.bracketed.total

/-! ## The lines of the statement -/

theorem Name.not_mem_lead (key : Name) {c : Char} (hname : isNameChar c = false)
    (hc : c ∉ " = ".toList) : c ∉ key.text ++ " = ".toList := by
  rw [List.mem_append, not_or]
  exact ⟨fun hmem => ne_of_class (isNameChar_of_mem hmem) hname rfl, hc⟩

theorem Name.opens_no_block_assigns (key : Name) {value : List Char} (h : ¬ ['/', '*'] <:+: value) :
    ¬ ['/', '*'] <:+: key.assigns value :=
  fun hin => h (infix_pair_of_append (key.not_mem_lead (by decide) (by decide)) hin)

/-- Blanks behind a value do not count. -/
theorem Name.trim_assigns (key : Name) {c : Char} (hc : isBlank c = false) (rest : List Char) :
    trim (key.assigns (c :: rest)) = key.assigns (trim (c :: rest)) := by
  have hkey : IsSolid key.text := isSolid_of_trim key.text_ne_nil key.trim_text
  rcases blank_or_solid (c :: rest) with hblank | ⟨front, solid, back, hvalue, hsolid, hfront, hback⟩
  · rw [hblank c List.mem_cons_self] at hc
    exact absurd hc (by decide)
  · have hnil : front = [] := by
      cases front with
      | nil => rfl
      | cons d front =>
        rw [(List.cons.inj hvalue).1, hfront d List.mem_cons_self] at hc
        exact absurd hc (by decide)
    rw [hnil, List.nil_append] at hvalue
    have hassigns : IsSolid (key.assigns solid) := by
      rw [Name.assigns, List.append_assoc]
      exact hkey.append hsolid _
    have hsplit : key.assigns (solid ++ back) = key.assigns solid ++ back := by
      simp [Name.assigns]
    rw [hvalue, hsplit, trim_append_right hback, trim_append_right hback, hsolid.trim_eq,
      hassigns.trim_eq]

theorem ofText_assigns (key : Name) (value : List Char) :
    Line.ofText .body (key.assigns value) = .statement (String.ofList key.text) (trim value) := by
  have hequals : (key.assigns value).contains '=' = true := by simp [Name.assigns]
  have hne : (key.assigns value).isEmpty = false := by simp [Name.assigns]
  have hstatement := key.statement?_assigns value
  rw [statement?, if_pos hequals] at hstatement
  rw [Line.ofText, hne, key.header?_assigns, hequals]
  cases hsplit : splitStatement (key.assigns value) with
  | error cause =>
    rw [hsplit] at hstatement
    exact absurd hstatement (by simp [Except.map])
  | ok said =>
    rw [hsplit] at hstatement
    obtain rfl := Option.some.inj (Except.ok.inj hstatement)
    rfl

namespace ArrayLines

variable {first : List Char} {later : List (List Char)}

/-- Neither comments nor further lines are found in the statement. -/
theorem uncommentedLines_eq (h : ArrayLines first later) {text : List Char}
    (hlines : splitOn '\n' text = first :: later) {key : Name}
    (hopens : ¬ ['/', '*'] <:+: key.assigns text) :
    Scan.uncommentedLines (key.assigns text) = key.assigns first :: later := by
  have hundisturbed := List.forall_mem_cons.mp h.undisturbed
  have hsplit : splitOn '\n' (key.assigns text) = key.assigns first :: later :=
    splitOn_append_of_not_mem (key.not_mem_lead (by decide) (by decide)) hlines
  have hfirst : Scan.stripLineComment (key.assigns first) = key.assigns first :=
    Scan.stripLineComment_of_cut (key.cutUnquoted?_slash_assigns fun _ hs =>
      Scan.cutWhen?_slash_of_disturbs hundisturbed.1 hs)
  have hlater : ∀ line ∈ later, Scan.stripLineComment line = line := fun line hline =>
    Scan.stripLineComment_of_cut (Scan.cutWhen?_slash_of_disturbs (hundisturbed.2 line hline) rfl)
  rw [Scan.uncommentedLines, Scan.stripBlocks_of_no_opening hopens, hsplit, List.map_cons, hfirst,
    List.map_congr_left hlater, List.map_id']

/-- No line of the statement includes a file. -/
theorem isInclude_eq (h : ArrayLines first later) {key : Name} (hkey : key.text ≠ "include".toList) :
    ∀ line ∈ key.assigns first :: later, isInclude line = false := by
  obtain ⟨⟨tail, rfl⟩, -, hundisturbed, -, -⟩ := h
  rw [List.forall_mem_cons] at hundisturbed ⊢
  refine ⟨?_, fun line hline => isInclude_of_disturbs (hundisturbed.2 line hline)⟩
  rw [isInclude, key.trim_assigns rfl]
  exact key.includeWord_assigns _ hkey

/-- All lines of the array are gathered, and no further one. -/
theorem captureBlock_eq (h : ArrayLines first later) (rest : List (List Char)) :
    captureBlock (trim first) (later.map trim ++ rest)
      = (trim first ++ (solidLines later).flatMap ('\n' :: ·), rest) := by
  obtain ⟨⟨tail, rfl⟩, -, -, hopens, hcloses⟩ := h
  obtain ⟨kept, hkept⟩ := @trim_cons_of_not_blank '[' rfl tail
  have hbalance : ∀ lines : List (List Char),
      balance '[' ']' (trim ('[' :: tail) ++ lines.flatMap ('\n' :: ·))
        = balance '[' ']' ('[' :: tail ++ lines.flatMap ('\n' :: ·)) := by
    intro lines
    rw [balance_append, balance_trim rfl rfl, ← balance_append]
  have hgathered := @gatherBlock_lines '[' ']' rfl rfl (trim ('[' :: tail)) later
    (fun front line back heq => by rw [hbalance]; exact hopens front line back heq)
    (by rw [hbalance, hcloses]) rest
  rw [captureBlock, hkept]
  rw [hkept] at hgathered
  exact hgathered

end ArrayLines

/-! ## Reading the statement -/

theorem exists_lines (text : List Char) : ∃ first later, splitOn '\n' text = first :: later := by
  cases hlines : splitOn '\n' text with
  | nil => exact absurd hlines (splitOn_ne_nil '\n' text)
  | cons first later => exact ⟨first, later, rfl⟩

/-- What is gathered of an array resolves to it. -/
theorem resolveBy_gathered {items : List Nested} {text first : List Char} {later : List (List Char)}
    (h : Layout (.array items) text) (hlines : splitOn '\n' text = first :: later)
    (expression? : Option (List Char → Except Fault Value)) (scope : Scope) :
    scope.resolveBy expression? (trim first ++ (solidLines later).flatMap ('\n' :: ·))
      = .ok (Nested.array items).value := by
  have htext : first ++ later.flatMap ('\n' :: ·) = text := by
    rw [← intercalate_cons_flatMap, ← hlines, intercalate_splitOn]
  have hjoined := trim_joinLines_gathered (arrayLines_of_layout h hlines).newline_not_mem
  obtain ⟨inner, hinner, -⟩ := h.exists_inner fun _ _ _ hitem => hitem.holds
  rw [htext, hinner, joinLines_bracketed, (isSolid_bracketed _).trim_eq] at hjoined
  rw [Scope.resolveBy_of_joinLines hjoined, ← hinner]
  exact h.resolveBy_eq expression? scope

/-- The statement writes the array, and reading goes on with the line behind it. -/
theorem readLines_assigns {items : List Nested} {text : List Char} (h : Layout (.array items) text)
    (env : Environment) (b : Building) (key : Name) (rest : List (List Char)) :
    readLines env b ((Scan.uncommentedLines (key.assigns text)).map trim ++ rest)
      = match b.tree.write b.sectionPath (String.ofList key.text) (Nested.array items).value with
        | .ok tree => readLines env { b with tree := tree } rest
        | .error f => .stopped b f := by
  obtain ⟨first, later, hlines⟩ := exists_lines text
  have harray := arrayLines_of_layout h hlines
  have hline : trim (key.assigns first) = key.assigns (trim first) := by
    obtain ⟨tail, rfl⟩ := harray.head
    exact key.trim_assigns rfl tail
  have hresolve : (b.scope env).resolve (trim first ++ (solidLines later).flatMap ('\n' :: ·))
      = .ok (Nested.array items).value := resolveBy_gathered h hlines _ _
  have hread := readPart_cons env .body b (key.assigns (trim first)) (later.map trim ++ rest)
  rw [← hline, trim_trim, hline, ofText_assigns, trim_trim] at hread
  dsimp only at hread
  rw [harray.captureBlock_eq, put_body, Building.assign, hresolve] at hread
  rw [harray.uncommentedLines_eq hlines (key.opens_no_block_assigns h.holds.1.tidy.opens_no_block),
    List.map_cons, hline]
  refine hread.trans ?_
  dsimp only [bind, Except.bind]
  cases b.tree.write b.sectionPath (String.ofList key.text) (Nested.array items).value with
  | error f => rfl
  | ok tree => rfl

/-! ## Parsing a document that begins with the statement -/

/-- What follows a text on further lines is read by itself, if no block comment opens in the text. -/
theorem exists_later_lines (later : List (List Char)) :
    ∃ lines, ∀ text : List Char, ¬ ['/', '*'] <:+: text →
      Scan.uncommentedLines (['\n'].intercalate (text :: later))
        = Scan.uncommentedLines text ++ lines := by
  cases later with
  | nil =>
    refine ⟨[], fun text _ => ?_⟩
    rw [List.intercalate_singleton, List.append_nil]
  | cons next others =>
    refine ⟨Scan.uncommentedLines (['\n'].intercalate (next :: others)), fun text hopens => ?_⟩
    rw [List.intercalate_cons_cons, List.append_assoc, List.singleton_append,
      Scan.uncommentedLines_append (Scan.leavesBlockOpen_of_no_opening hopens)]

/-- The lines of the statement are kept, and includes below it are expanded. -/
theorem expandIncludes_assigns {items : List Nested} {text : List Char}
    (h : Layout (.array items) text) {key : Name} (hkey : key.text ≠ "include".toList)
    (store : Files.Store) (base : List Char) (lines : List (List Char)) :
    expandIncludes store base [] (Scan.uncommentedLines (key.assigns text) ++ lines)
      = (expandIncludes store base [] lines).map
          ((Scan.uncommentedLines (key.assigns text)).map trim ++ ·) := by
  obtain ⟨first, later, hlines⟩ := exists_lines text
  have harray := arrayLines_of_layout h hlines
  have hplain : ∀ line ∈ Scan.uncommentedLines (key.assigns text), isInclude line = false := by
    rw [harray.uncommentedLines_eq hlines (key.opens_no_block_assigns h.holds.1.tidy.opens_no_block)]
    exact harray.isInclude_eq hkey
  rw [expandIncludes_append, expandIncludes_of_plain store base [] hplain]
  rfl

/-- However an array is laid out, a document that assigns it gives the same tree, or the same fault, as
    with the array on one line: the statement writes the array to its key, and reading goes on with the
    line behind it. -/
theorem parseText_layout {key : Name} (hkey : key.text ≠ "include".toList) {items : List Nested}
    {text : List Char} (h : Layout (.array items) text) (store : Files.Store) (env : Environment)
    (later : List (List Char)) :
    parseText store env (['\n'].intercalate (key.assigns text :: later))
        = parseText store env
          (['\n'].intercalate (key.assigns (Nested.array items).literal :: later))
      ∧ ∀ written ∈ [text, (Nested.array items).literal], ∀ (b : Building) (rest : List (List Char)),
        readLines env b ((Scan.uncommentedLines (key.assigns written)).map trim ++ rest)
          = match b.tree.write b.sectionPath (String.ofList key.text) (Nested.array items).value with
            | .ok tree => readLines env { b with tree := tree } rest
            | .error f => .stopped b f := by
  have hliteral := layout_literal (.array items)
  have hwritten : ∀ written ∈ [text, (Nested.array items).literal], Layout (.array items) written := by
    simpa using ⟨h, hliteral⟩
  refine ⟨?_, fun written hmem b rest => readLines_assigns (hwritten written hmem) env b key rest⟩
  obtain ⟨lines, hlines⟩ := exists_later_lines later
  have hopens : ∀ written, Layout (.array items) written → ¬ ['/', '*'] <:+: key.assigns written :=
    fun written hlayout => key.opens_no_block_assigns hlayout.holds.1.tidy.opens_no_block
  rw [parseText_eq, parseText_eq, hlines _ (hopens _ h), hlines _ (hopens _ hliteral),
    expandIncludes_assigns h hkey, expandIncludes_assigns hliteral hkey]
  cases expandIncludes store store.workingDirectory [] lines with
  | error f => rfl
  | ok rest =>
    dsimp only [Except.map, Except.bind]
    rw [build, build, readLines_assigns h, readLines_assigns hliteral]

/-- Two rows, one of a number and one of a string with a comma. -/
def rows : List Nested :=
  [.array [.scalar (.int 1) trivial], .array [.scalar (.string "a, b") (by decide +kernel)]]

/-- The rows on lines of their own, with a blank line between them. -/
theorem layout_rows : Layout (.array rows) "[\n[1],\n\n  [\"a, b\"]\n]".toList := by
  have hblank : ∀ gap : List Char, gap.all isBlank = true → ∀ c ∈ gap, isBlank c = true :=
    fun _ => List.all_eq_true.mp
  have hrow : ∀ x plain, Layout (.array [.scalar x plain]) ('[' :: (x.literal ++ [']'])) := by
    intro x plain
    simpa using Layout.array (hblank [] rfl) (.one (.scalar x plain)) (hblank [] rfl)
  have hrows := Joined.more (hrow (.int 1) trivial) (hblank "\n\n  ".toList rfl)
    (.one (hrow (.string "a, b") (by decide +kernel)))
  exact .array (hblank ['\n'] rfl) hrows (hblank ['\n'] rfl)

theorem parseText_rows :
    "rows".toList ≠ "include".toList
      ∧ Layout (.array rows) "[\n[1],\n\n  [\"a, b\"]\n]".toList
      ∧ parseText {} {} "rows = [\n[1],\n\n  [\"a, b\"]\n]\nnext = rows".toList
        = parseText {} {} "rows = [[1],[\"a, b\"]]\nnext = rows".toList := by
  have hkey : "rows".toList ≠ "include".toList := by decide
  exact ⟨hkey, layout_rows,
    (@parseText_layout ⟨"rows".toList, rfl⟩ hkey rows _ layout_rows {} {} ["next = rows".toList]).1⟩

end ConfigLang.Document
