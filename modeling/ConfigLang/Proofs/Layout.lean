import ConfigLang.Proofs.PlainDocument
import ConfigLang.Proofs.ReadingLines

set_option autoImplicit false

/-! # Layout

Blank lines, lines of nothing but a comment, and blanks at the ends of a line do not count, wherever
they stand: between statements, among the lines of a value, inside a block comment or among the
defaults. Main statement: a document in another layout gives the same tree or the same fault
(`parseText_relaid`). -/

namespace ConfigLang

open Text

namespace Document

/-! ## Documents in another layout -/

/-- Blanks that stay on their line. -/
def IsMargin (blanks : List Char) : Prop :=
  ∀ c ∈ blanks, isBlank c = true ∧ c ≠ '\n'

/-- A line of nothing but blanks, or of a comment that neither opens nor closes a block. -/
inductive IsFiller : List Char → Prop where
  | blank {blanks : List Char} (h : IsMargin blanks) : IsFiller blanks
  | comment {indent text : List Char} (hindent : IsMargin indent) (hline : '\n' ∉ text)
      (hopens : ¬ ['/', '*'] <:+: '/' :: '/' :: text)
      (hcloses : ¬ ['*', '/'] <:+: '/' :: '/' :: text) :
      IsFiller (indent ++ '/' :: '/' :: text)

/-- The lines of a document, and the same lines with further blanks at their ends and with fillers
    before, between and behind them. -/
inductive Relaid : List (List Char) → List (List Char) → Prop where
  | nil : Relaid [] []
  | line {front back line : List Char} {lines lines' : List (List Char)} (hfront : IsMargin front)
      (hback : IsMargin back) (h : Relaid lines lines') :
      Relaid (line :: lines) ((front ++ line ++ back) :: lines')
  | filler {line : List Char} {lines lines' : List (List Char)} (hline : IsFiller line)
      (h : Relaid lines lines') : Relaid lines (line :: lines')

instance (blanks : List Char) : Decidable (IsMargin blanks) :=
  decidable_of_iff (blanks.all fun c => isBlank c && c != '\n') (by simp [IsMargin])

theorem IsMargin.nil : IsMargin [] :=
  fun _ hc => absurd hc List.not_mem_nil

/-- A line that stays as it is. -/
theorem Relaid.keep {line : List Char} {lines lines' : List (List Char)} (h : Relaid lines lines') :
    Relaid (line :: lines) (line :: lines') := by
  simpa using @Relaid.line [] [] line lines lines' .nil .nil h

theorem IsMargin.isBlank {blanks : List Char} (h : IsMargin blanks) :
    ∀ c ∈ blanks, isBlank c = true :=
  fun c hc => (h c hc).1

theorem IsMargin.not_mem {blanks : List Char} (h : IsMargin blanks) {c : Char}
    (hc : Text.isBlank c = false) : c ∉ blanks := by
  intro hmem
  rw [h.isBlank c hmem] at hc
  exact absurd hc (by decide)

theorem IsMargin.newline_not_mem {blanks : List Char} (h : IsMargin blanks) : '\n' ∉ blanks :=
  fun hmem => (h '\n' hmem).2 rfl

/-! ## Line comments and margins -/

section

open Scan

/-- Outside quotes the characters before do not decide where a comment begins. -/
theorem stripLineFrom_of_span_none {s t : Quotes} (hs : s.span? = none) (ht : t.span? = none)
    (line : List Char) : stripLineFrom s line = stripLineFrom t line := by
  cases line with
  | nil => rfl
  | cons c rest =>
    simp only [stripLineFrom, Quotes.outside, hs, ht, Quotes.step_eq_of_span_none hs ht]

theorem stripLineFrom_margin {s : Quotes} (hs : s.span? = none) {front : List Char}
    (hfront : IsMargin front) (line : List Char) :
    stripLineFrom s (front ++ line) = front ++ stripLineFrom s line := by
  induction front generalizing s with
  | nil => rfl
  | cons c front ih =>
    have hc := hfront.isBlank c List.mem_cons_self
    have hslash : (c == '/') = false := beq_eq_false_iff_ne.mpr (ne_of_class hc rfl)
    have hquote : isQuote c = false := by
      simp [isQuote, ne_of_class (d := '"') hc rfl, ne_of_class (d := '\'') hc rfl]
    have hstep := Quotes.span_step_of_not_quote hs hquote
    have hrest := ih hstep fun d hd => hfront d (List.mem_cons_of_mem _ hd)
    rw [List.cons_append, stripLineFrom, hslash, Bool.and_false, Bool.false_and, if_neg (by decide),
      hrest, stripLineFrom_of_span_none hstep hs, List.cons_append]

/-- Blanks behind a line stay behind what is left of it, or fall with its comment. -/
theorem stripLineFrom_append_margin (s : Quotes) {back : List Char} (hback : IsMargin back)
    (line : List Char) :
    ∃ tail, (∀ c ∈ tail, isBlank c = true)
      ∧ stripLineFrom s (line ++ back) = stripLineFrom s line ++ tail := by
  induction line generalizing s with
  | nil =>
    have hslash : ∀ c ∈ back, (c == '/') = false := by
      intro c hc
      rw [beq_eq_false_iff_ne]
      rintro rfl
      exact hback.not_mem rfl hc
    exact ⟨back, hback.isBlank, stripLineFrom_of_cut (cutWhen?_eq_none_of_forall hslash s)⟩
  | cons c rest ih =>
    have hhead : ((rest ++ back).head? == some '/') = (rest.head? == some '/') := by
      cases rest with
      | nil =>
        cases back with
        | nil => rfl
        | cons b back =>
          have hb : b ≠ '/' := ne_of_class (hback.isBlank b List.mem_cons_self) rfl
          simpa using hb
      | cons d rest => rfl
    rw [List.cons_append, stripLineFrom, stripLineFrom, hhead]
    split
    · exact ⟨[], by simp, rfl⟩
    · obtain ⟨tail, hblank, htail⟩ := ih (s.step c)
      exact ⟨tail, hblank, by rw [htail, List.cons_append]⟩

/-- Margins do not change what a line says. -/
theorem trim_stripLineComment_margins {front back : List Char} (hfront : IsMargin front)
    (hback : IsMargin back) (line : List Char) :
    trim (stripLineComment (front ++ line ++ back)) = trim (stripLineComment line) := by
  obtain ⟨tail, hblank, htail⟩ := stripLineFrom_append_margin {} hback line
  rw [stripLineComment, List.append_assoc, stripLineFrom_margin rfl hfront, htail,
    trim_append_left hfront.isBlank, trim_append_right hblank, stripLineComment]

end

/-! ## Lines that go unnoticed -/

/-- What makes a line go unnoticed by every stage. -/
structure IsIdle (line : List Char) : Prop where
  newline_not_mem : '\n' ∉ line
  opens_no_block : ¬ ['/', '*'] <:+: line
  closes_no_block : ¬ ['*', '/'] <:+: line
  trim_eq_nil : trim (Scan.stripLineComment line) = []

/-- A pair of which the first does not stand in front stands behind. -/
theorem infix_pair_of_append {c d : Char} {front rest : List Char} (hc : c ∉ front)
    (h : [c, d] <:+: front ++ rest) : [c, d] <:+: rest := by
  induction front with
  | nil => exact h
  | cons a front ih =>
    rw [List.mem_cons, not_or] at hc
    rcases List.infix_cons_iff.mp h with hstart | hlater
    · exact absurd (List.cons_prefix_cons.mp hstart).1 hc.1
    · exact ih hc.2 hlater

theorem IsMargin.holds_no_pair {blanks : List Char} (h : IsMargin blanks) {c d : Char}
    (hc : Text.isBlank c = false) : ¬ [c, d] <:+: blanks :=
  fun hin => h.not_mem hc (hin.subset List.mem_cons_self)

theorem IsMargin.isIdle {blanks : List Char} (h : IsMargin blanks) : IsIdle blanks where
  newline_not_mem := h.newline_not_mem
  opens_no_block := h.holds_no_pair rfl
  closes_no_block := h.holds_no_pair rfl
  trim_eq_nil := by
    have hempty := trim_stripLineComment_margins h .nil []
    rw [List.append_nil, List.append_nil] at hempty
    exact hempty

theorem IsFiller.isIdle {line : List Char} (h : IsFiller line) : IsIdle line := by
  cases h with
  | blank h => exact h.isIdle
  | @comment indent text hindent hline hopens hcloses =>
    refine ⟨?_, ?_, ?_, ?_⟩
    · simp only [List.mem_append, List.mem_cons, not_or]
      exact ⟨hindent.newline_not_mem, by decide, by decide, hline⟩
    · exact fun hin => hopens (infix_pair_of_append (hindent.not_mem rfl) hin)
    · exact fun hin => hcloses (infix_pair_of_append (hindent.not_mem rfl) hin)
    · have hcomment : Scan.stripLineComment (indent ++ '/' :: '/' :: text) = indent := by
        rw [Scan.stripLineComment, stripLineFrom_margin rfl hindent]
        simp [Scan.stripLineFrom, Scan.Quotes.outside, isQuote]
      rw [hcomment, ← List.append_nil indent, trim_append_left hindent.isBlank]
      rfl

/-! ## Texts with margins and idle lines -/

/-- A text in which every line is ended, and the same text with margins and idle lines; `start`
    tells whether a line begins. -/
inductive Respaced : Bool → List Char → List Char → Prop where
  | nil (start : Bool) : Respaced start [] []
  | char {start : Bool} {c : Char} {text text' : List Char} (hc : c ≠ '\n')
      (h : Respaced false text text') : Respaced start (c :: text) (c :: text')
  | lineEnd {start : Bool} {back text text' : List Char} (hback : IsMargin back)
      (h : Respaced true text text') : Respaced start ('\n' :: text) (back ++ '\n' :: text')
  | indent {front text text' : List Char} (hfront : IsMargin front)
      (h : Respaced false text text') : Respaced true text (front ++ text')
  | idle {line text text' : List Char} (hline : IsIdle line) (h : Respaced true text text') :
      Respaced true text (line ++ '\n' :: text')

namespace Respaced

variable {start : Bool} {text text' : List Char}

/-- At the beginning of a line there may be more. -/
theorem weaken (h : Respaced false text text') : Respaced start text text' := by
  cases start with
  | false => exact h
  | true => exact @indent [] _ _ .nil h

/-- Inside a line a character that is not blank stays where it is. -/
theorem exists_of_cons {c : Char} {tail : List Char} (hc : isBlank c = false)
    (h : Respaced false (c :: tail) text') :
    ∃ tail', text' = c :: tail' ∧ Respaced false tail tail' := by
  cases h with
  | char hne h => exact ⟨_, rfl, h⟩
  | lineEnd hback h => exact absurd hc (by decide)

theorem head?_eq {c : Char} (hc : isBlank c = false) (h : Respaced false text text')
    (hhead : text'.head? = some c) : text.head? = some c := by
  cases h with
  | nil => exact hhead
  | char hne h => exact hhead
  | @lineEnd _ back tail tail' hback h =>
    cases back with
    | nil =>
      rw [List.nil_append, List.head?_cons, Option.some_inj] at hhead
      rw [← hhead] at hc
      exact absurd hc (by decide)
    | cons b back =>
      rw [List.cons_append, List.head?_cons, Option.some_inj] at hhead
      rw [← hhead, hback.isBlank b List.mem_cons_self] at hc
      exact absurd hc (by decide)

/-! ### Block comments -/

open Scan

theorem behindBlock?_idle {line : List Char} (h : IsIdle line) (rest : List Char) :
    behindBlock? (line ++ '\n' :: rest) = behindBlock? rest := by
  rw [behindBlock?_append h.closes_no_block fun _ => by simp,
    behindBlock?_cons fun hc => absurd hc (by decide)]

theorem stripBlocks_idle {line : List Char} (h : IsIdle line) (rest : List Char) :
    stripBlocks (line ++ '\n' :: rest) = line ++ '\n' :: stripBlocks rest := by
  rw [stripBlocks_append (leavesBlockOpen_of_no_opening h.opens_no_block) fun _ => by simp,
    stripBlocks_of_no_opening h.opens_no_block, stripBlocks_cons fun hc => absurd hc (by decide)]

/-- A block ends in both texts, or in neither. -/
theorem behindBlock?_cases (h : Respaced start text text') :
    (behindBlock? text = none ∧ behindBlock? text' = none)
      ∨ ∃ after after', behindBlock? text = some after ∧ behindBlock? text' = some after'
        ∧ Respaced false after after' := by
  induction h with
  | nil start => exact Or.inl ⟨rfl, rfl⟩
  | @char start c text text' hc h ih =>
    by_cases hends : c = '*' ∧ text.head? = some '/'
    · obtain ⟨rfl, hslash⟩ := hends
      obtain ⟨tail, rfl⟩ := List.head?_eq_some_iff.mp hslash
      obtain ⟨tail', rfl, htail⟩ := h.exists_of_cons rfl
      exact Or.inr ⟨tail, tail', rfl, rfl, htail⟩
    · have hcons : c = '*' → text.head? ≠ some '/' := fun hstar hslash => hends ⟨hstar, hslash⟩
      rw [behindBlock?_cons hcons,
        behindBlock?_cons fun hstar hslash => hcons hstar (h.head?_eq rfl hslash)]
      exact ih
  | @lineEnd start back text text' hback h ih =>
    rw [behindBlock?_idle hback.isIdle, behindBlock?_cons fun hc => absurd hc (by decide)]
    exact ih
  | @indent front text text' hfront h ih =>
    rw [behindBlock?_append (hfront.holds_no_pair rfl) fun hlast =>
      absurd (List.mem_of_mem_getLast? hlast) (hfront.not_mem rfl)]
    exact ih
  | @idle line text text' hline h ih =>
    rw [behindBlock?_idle hline]
    exact ih

/-- Removing the block comments keeps the texts the same up to margins and idle lines. -/
theorem stripBlocks (h : Respaced start text text') :
    Respaced start (Scan.stripBlocks text) (Scan.stripBlocks text') := by
  obtain ⟨n, hn⟩ : ∃ n, text.length ≤ n := ⟨_, Nat.le_refl _⟩
  -- outside on the length, for what follows a block; inside on the two texts
  induction n using Nat.strongRecOn generalizing start text text' with
  | ind n ihLength =>
    induction h with
    | nil start =>
      rw [Scan.stripBlocks]
      exact .nil start
    | @char start c text text' hc h ih =>
      by_cases hopens : c = '/' ∧ text.head? = some '*'
      · obtain ⟨rfl, hstar⟩ := hopens
        obtain ⟨tail, rfl⟩ := List.head?_eq_some_iff.mp hstar
        obtain ⟨tail', rfl, htail⟩ := h.exists_of_cons rfl
        rw [stripBlocks_opening, stripBlocks_opening]
        rcases htail.behindBlock?_cases with
          ⟨hnone, hnone'⟩ | ⟨after, after', hsome, hsome', hafter⟩
        · rw [hnone, hnone']
          exact .char hc h
        · rw [hsome, hsome']
          have hlength := length_behindBlock? hsome
          simp only [List.length_cons] at hn
          exact (ihLength after.length (by omega) hafter (Nat.le_refl _)).weaken
      · have hcons : c = '/' → text.head? ≠ some '*' := fun hslash hstar => hopens ⟨hslash, hstar⟩
        rw [stripBlocks_cons hcons,
          stripBlocks_cons fun hslash hstar => hcons hslash (h.head?_eq rfl hstar)]
        exact .char hc (ih (Nat.le_of_succ_le hn))
    | @lineEnd start back text text' hback h ih =>
      rw [stripBlocks_idle hback.isIdle, stripBlocks_cons fun hc => absurd hc (by decide)]
      exact .lineEnd hback (ih (Nat.le_of_succ_le hn))
    | @indent front text text' hfront h ih =>
      rw [stripBlocks_append (leavesBlockOpen_of_no_opening (hfront.holds_no_pair rfl)) fun hlast =>
          absurd (List.mem_of_mem_getLast? hlast) (hfront.not_mem rfl),
        stripBlocks_of_no_opening (hfront.holds_no_pair rfl)]
      exact .indent hfront (ih hn)
    | @idle line text text' hline h ih =>
      rw [stripBlocks_idle hline]
      exact .idle hline (ih hn)

/-! ### Lines -/

theorem append_left {line : List Char} (hline : '\n' ∉ line) (h : Respaced false text text') :
    Respaced false (line ++ text) (line ++ text') := by
  induction line with
  | nil => exact h
  | cons c line ih =>
    rw [List.mem_cons, not_or] at hline
    exact .char (fun heq => hline.1 heq.symm) (ih hline.2)

/-- Lines in another layout, each with its end. -/
theorem ofRelaid {lines lines' : List (List Char)} (h : Relaid lines lines')
    (hlines : ∀ line ∈ lines, '\n' ∉ line) :
    Respaced true (lines.flatMap (· ++ ['\n'])) (lines'.flatMap (· ++ ['\n'])) := by
  induction h with
  | nil => exact .nil true
  | @line front back line lines lines' hfront hback h ih =>
    have hrest := ih fun l hl => hlines l (List.mem_cons_of_mem _ hl)
    have hbreak : Respaced false ('\n' :: lines.flatMap (· ++ ['\n']))
        (back ++ '\n' :: lines'.flatMap (· ++ ['\n'])) := .lineEnd hback hrest
    have hend := hbreak.append_left (hlines line List.mem_cons_self)
    simpa [List.append_assoc] using Respaced.indent hfront hend
  | @filler line lines lines' hline h ih =>
    simpa [List.append_assoc] using Respaced.idle hline.isIdle (ih hlines)

end Respaced

/-! ## Lines that say something -/

/-- The lines that say something, trimmed. -/
def solidLines (lines : List (List Char)) : List (List Char) :=
  (lines.map trim).filter (!·.isEmpty)

/-- The lines of a text that say something, less their line comments. -/
def codeLines (text : List Char) : List (List Char) :=
  solidLines ((splitOn '\n' text).map Scan.stripLineComment)

theorem solidLines_append (lines more : List (List Char)) :
    solidLines (lines ++ more) = solidLines lines ++ solidLines more := by
  rw [solidLines, List.map_append, List.filter_append]
  rfl

theorem solidLines_cons_of_blank {raw : List Char} (h : trim raw = []) (rest : List (List Char)) :
    solidLines (raw :: rest) = solidLines rest := by
  simp [solidLines, h]

theorem solidLines_cons_of_solid {raw : List Char} (h : trim raw ≠ []) (rest : List (List Char)) :
    solidLines (raw :: rest) = trim raw :: solidLines rest := by
  simp [solidLines, h]

theorem codeLines_line {line : List Char} (h : '\n' ∉ line) :
    codeLines line = solidLines [Scan.stripLineComment line] := by
  rw [codeLines, splitOn_of_not_mem h]
  rfl

theorem codeLines_append (line rest : List Char) :
    codeLines (line ++ '\n' :: rest) = codeLines line ++ codeLines rest := by
  rw [codeLines, splitOn_append_mark, List.map_append, solidLines_append]
  rfl

theorem codeLines_margins {front back line : List Char} (hfront : IsMargin front)
    (hback : IsMargin back) (hline : '\n' ∉ line) :
    codeLines (front ++ line ++ back) = codeLines line := by
  have hwhole : '\n' ∉ front ++ line ++ back := by
    simp only [List.mem_append, not_or]
    exact ⟨⟨hfront.newline_not_mem, hline⟩, hback.newline_not_mem⟩
  rw [codeLines_line hwhole, codeLines_line hline, solidLines, solidLines, List.map_singleton,
    List.map_singleton, trim_stripLineComment_margins hfront hback]

/-- Margins and idle lines leave the lines that say something as they are; `line` holds what is read
    of the line so far. -/
theorem Respaced.codeLines_eq {start : Bool} {text text' : List Char}
    (h : Respaced start text text') {front line : List Char} (hfront : IsMargin front)
    (hline : '\n' ∉ line) (hstart : start = true → front = [] ∧ line = []) :
    codeLines (front ++ line ++ text') = codeLines (line ++ text) := by
  induction h generalizing front line with
  | nil start =>
    rw [codeLines_margins hfront .nil hline, List.append_nil]
  | @char start c text text' hc h ih =>
    have hmore : '\n' ∉ line ++ [c] := by
      rw [List.mem_append, List.mem_singleton, not_or]
      exact ⟨hline, fun heq => hc heq.symm⟩
    simpa [List.append_assoc] using ih hfront hmore fun heq => absurd heq (by decide)
  | @lineEnd start back text text' hback h ih =>
    rw [← List.append_assoc, codeLines_append, codeLines_append,
      codeLines_margins hfront hback hline]
    exact congrArg _ (ih .nil List.not_mem_nil fun _ => ⟨rfl, rfl⟩)
  | @indent indent text text' hindent h ih =>
    obtain ⟨rfl, rfl⟩ := hstart rfl
    simpa using ih hindent List.not_mem_nil fun heq => absurd heq (by decide)
  | @idle idle text text' hidle h ih =>
    obtain ⟨rfl, rfl⟩ := hstart rfl
    have hsilent : codeLines idle = [] := by
      rw [codeLines_line hidle.newline_not_mem, solidLines_cons_of_blank hidle.trim_eq_nil]
      rfl
    rw [List.append_nil, List.nil_append, codeLines_append, hsilent]
    exact ih .nil List.not_mem_nil fun _ => ⟨rfl, rfl⟩

/-- The lines of a text, each with its end. -/
theorem flatMap_splitOn (text : List Char) :
    (splitOn '\n' text).flatMap (· ++ ['\n']) = text ++ ['\n'] := by
  induction text with
  | nil => rfl
  | cons c rest ih =>
    rw [splitOn]
    split
    next hc =>
      rw [List.flatMap_cons, ih, hc, List.nil_append, List.singleton_append, List.cons_append]
    next hc =>
      cases hpieces : splitOn '\n' rest with
      | nil => exact absurd hpieces (splitOn_ne_nil '\n' rest)
      | cons piece pieces =>
        rw [hpieces, List.flatMap_cons] at ih
        rw [List.cons_append, ← ih]
        rfl

theorem codeLines_stripBlocks_newline (text : List Char) :
    codeLines (Scan.stripBlocks (text ++ ['\n'])) = solidLines (Scan.uncommentedLines text) := by
  rw [Scan.stripBlocks_newline, codeLines_append]
  exact List.append_nil _

theorem solidLines_relaid {text text' : List Char}
    (h : Relaid (splitOn '\n' text) (splitOn '\n' text')) :
    solidLines (Scan.uncommentedLines text') = solidLines (Scan.uncommentedLines text) := by
  have hspaced := (Respaced.ofRelaid h fun _ => not_mem_of_mem_splitOn).stripBlocks
  rw [flatMap_splitOn, flatMap_splitOn] at hspaced
  rw [← codeLines_stripBlocks_newline, ← codeLines_stripBlocks_newline]
  exact @Respaced.codeLines_eq _ _ _ hspaced [] [] .nil List.not_mem_nil fun _ => ⟨rfl, rfl⟩

/-! ## Reading lines that say something -/

/-- A trimmed line includes what the line includes. -/
theorem expandIncludes_trim (store : Files.Store) (base : List Char) (stack : List (List String))
    (raw : List Char) :
    expandIncludes store base stack [trim raw] = expandIncludes store base stack [raw] := by
  rw [expandIncludes.eq_2 store base stack raw, expandIncludes.eq_2, trim_trim]

theorem expandIncludes_of_blank (store : Files.Store) (base : List Char)
    (stack : List (List String)) {raw : List Char} (h : trim raw = []) :
    expandIncludes store base stack [raw] = .ok [[]] := by
  rw [← expandIncludes_trim, h, expandIncludes_of_plain _ _ _ (by decide)]
  rfl

/-- Blank lines neither include a file nor keep one from being included. -/
theorem expandIncludes_solidLines (store : Files.Store) (base : List Char)
    (stack : List (List String)) (lines : List (List Char)) :
    (expandIncludes store base stack (solidLines lines)).map solidLines
      = (expandIncludes store base stack lines).map solidLines := by
  induction lines with
  | nil => rfl
  | cons raw rest ih =>
    rw [expandIncludes_cons store base stack raw]
    by_cases hblank : trim raw = []
    · rw [solidLines_cons_of_blank hblank, ih, expandIncludes_of_blank _ _ _ hblank]
      cases expandIncludes store base stack rest <;> rfl
    · rw [solidLines_cons_of_solid hblank, expandIncludes_cons, expandIncludes_trim]
      cases expandIncludes store base stack [raw] with
      | error f => rfl
      | ok nested =>
        have happend : ∀ result : Except Fault (List (List Char)),
            (result.map (nested ++ ·)).map solidLines
              = (result.map solidLines).map (solidLines nested ++ ·) := by
          intro result
          cases result with
          | error f => rfl
          | ok others => exact congrArg Except.ok (solidLines_append nested others)
        dsimp only [Except.bind]
        rw [happend, happend, ih]

theorem gatherBlock_solidLines (opening closing : Char) (text : List Char)
    (lines : List (List Char)) :
    gatherBlock opening closing text (solidLines lines)
      = ((gatherBlock opening closing text lines).1,
        solidLines (gatherBlock opening closing text lines).2) := by
  induction lines generalizing text with
  | nil => rfl
  | cons raw rest ih =>
    by_cases hclosed : balance opening closing text ≤ 0
    · rw [gatherBlock_of_balance hclosed, gatherBlock_of_balance hclosed]
    · rw [gatherBlock, if_neg hclosed]
      by_cases hblank : trim raw = []
      · rw [solidLines_cons_of_blank hblank, hblank]
        exact ih text
      · have hsolid : (trim raw).isEmpty = false := List.isEmpty_eq_false_iff.mpr hblank
        rw [solidLines_cons_of_solid hblank, gatherBlock, if_neg hclosed, trim_trim, hsolid]
        exact ih _

theorem captureBlock_solidLines (initial : List Char) (lines : List (List Char)) :
    captureBlock initial (solidLines lines)
      = ((captureBlock initial lines).1, solidLines (captureBlock initial lines).2) := by
  unfold captureBlock
  split
  · exact gatherBlock_solidLines _ _ _ _
  · exact gatherBlock_solidLines _ _ _ _
  · rfl

/-- Reading skips the lines that say nothing. -/
theorem readPart_solidLines (env : Environment) (part : Part) (b : Building)
    (lines : List (List Char)) :
    readPart env part b (solidLines lines) = readPart env part b lines := by
  induction lines using lines_induction generalizing part b with
  | nil => rfl
  | cons raw rest ih =>
    rw [readPart_cons env part b raw]
    by_cases hblank : trim raw = []
    · rw [solidLines_cons_of_blank hblank, hblank, Line.ofText_nil]
      exact ih rest (Nat.le_refl _) part b
    · rw [solidLines_cons_of_solid hblank, readPart_cons, trim_trim]
      cases Line.ofText part (trim raw) with
      | silent => exact ih rest (Nat.le_refl _) part b
      | header name => exact ih rest (Nat.le_refl _) part (b.enter name)
      | defaultsHeader => exact ih rest (Nat.le_refl _) .defaults b
      | malformed cause => rfl
      | statement key initial =>
        simp only [captureBlock_solidLines]
        cases part.put env b key (captureBlock initial rest).1 with
        | error f => rfl
        | ok b => exact ih _ (length_captureBlock_le initial rest) part b

theorem build_solidLines (env : Environment) (lines : List (List Char)) :
    build env (solidLines lines) = build env lines := by
  have hread : readLines env {} (solidLines lines) = readLines env {} lines :=
    readPart_solidLines env .body {} lines
  rw [build, hread, build]

/-- What the parser makes of lines depends on those that say something only. -/
theorem parse_solidLines (store : Files.Store) (env : Environment) (base : List Char)
    (lines : List (List Char)) :
    ((expandIncludes store base [] lines).bind fun all => (build env all).result.map (·.tree))
      = ((expandIncludes store base [] (solidLines lines)).map solidLines).bind
          fun all => (build env all).result.map (·.tree) := by
  rw [expandIncludes_solidLines]
  cases expandIncludes store base [] lines with
  | error f => rfl
  | ok all =>
    dsimp only [Except.map, Except.bind]
    rw [build_solidLines]

/-! ## Parsing -/

/-- Blank lines, lines of nothing but a comment, and blanks at the ends of a line change neither the
    tree of a document nor its fault. -/
theorem parseText_relaid (store : Files.Store) (env : Environment) {text text' : List Char}
    (h : Relaid (splitOn '\n' text) (splitOn '\n' text')) :
    parseText store env text' = parseText store env text := by
  rw [parseText_eq, parseText_eq, parse_solidLines, solidLines_relaid h, ← parse_solidLines]

/-- A value of two lines, a block comment and a default. -/
def tightLines : List (List Char) :=
  ["[server]".toList, "ports = [80,".toList, "443]".toList, "/* before:".toList, "*/".toList,
    "[Defaults]".toList, "name = \"//\"".toList]

/-- The same with blanks at the ends of lines, and with further lines in the value, in the block
    comment and among the defaults. -/
def airyLines : List (List Char) :=
  ["\t".toList ++ "[server]".toList ++ "\r".toList, "ports = [80,".toList,
    "  ".toList ++ '/' :: '/' :: " secure".toList, "443]".toList, "/* before:".toList,
    [] ++ '/' :: '/' :: " none".toList, "*/".toList, "[Defaults]".toList, " \r".toList,
    [] ++ "name = \"//\"".toList ++ " ".toList, []]

theorem parseText_airyLines :
    Relaid (splitOn '\n' (['\n'].intercalate tightLines))
        (splitOn '\n' (['\n'].intercalate airyLines))
      ∧ parseText {} {} (['\n'].intercalate airyLines)
        = parseText {} {} (['\n'].intercalate tightLines) := by
  have hrelaid : Relaid tightLines airyLines :=
    .line (by decide +kernel) (by decide +kernel) <| .keep <|
      .filler (.comment (by decide +kernel) (by decide +kernel) (by decide +kernel)
        (by decide +kernel)) <| .keep <| .keep <|
      .filler (.comment (by decide +kernel) (by decide +kernel) (by decide +kernel)
        (by decide +kernel)) <| .keep <| .keep <|
      .filler (.blank (by decide +kernel)) <| .line (by decide +kernel) (by decide +kernel) <|
      .filler (.blank (by decide +kernel)) .nil
  have htight : splitOn '\n' (['\n'].intercalate tightLines) = tightLines :=
    splitOn_intercalate (by decide) (by decide +kernel)
  have hairy : splitOn '\n' (['\n'].intercalate airyLines) = airyLines :=
    splitOn_intercalate (by decide) (by decide +kernel)
  have h : Relaid (splitOn '\n' (['\n'].intercalate tightLines))
      (splitOn '\n' (['\n'].intercalate airyLines)) := by
    rw [htight, hairy]
    exact hrelaid
  exact ⟨h, parseText_relaid {} {} h⟩

end Document

end ConfigLang
