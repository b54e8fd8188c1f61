import ConfigLang.Proofs.Layout

set_option autoImplicit false

/-! # Values written on several lines

A value in brackets is gathered from its lines, each of them trimmed, and its lines are joined when
its items are read. Main statements: the gathered text is joined to the same as the text itself
(`trim_joinLines_gathered`), and an array resolves to the same wherever its lines break
(`Scope.resolveBy_of_joinLines`). -/

namespace ConfigLang

open Text

namespace Text

/-! ## Blanks and what stands between them -/

/-- A text that begins and ends with characters that are not blank. -/
structure IsSolid (text : List Char) : Prop where
  first : ∃ c rest, text = c :: rest ∧ isBlank c = false
  last : ∃ front c, text = front ++ [c] ∧ isBlank c = false

theorem IsSolid.ne_nil {text : List Char} (h : IsSolid text) : text ≠ [] := by
  obtain ⟨c, rest, rfl, -⟩ := h.first
  exact List.cons_ne_nil c rest

theorem IsSolid.trim_eq {text : List Char} (h : IsSolid text) : trim text = text := by
  apply trim_eq_self
  · obtain ⟨c, rest, rfl, hc⟩ := h.first
    intro d hd
    obtain rfl := Option.some.inj hd
    exact hc
  · obtain ⟨front, c, rfl, hc⟩ := h.last
    intro d hd
    rw [List.getLast?_concat] at hd
    obtain rfl := Option.some.inj hd
    exact hc

theorem isSolid_bracketed (inner : List Char) : IsSolid ('[' :: (inner ++ [']'])) :=
  ⟨⟨'[', _, rfl, rfl⟩, ⟨'[' :: inner, ']', rfl, rfl⟩⟩

/-- Blanks around a text do not count. -/
theorem IsSolid.trim_margins {text front back : List Char} (h : IsSolid text)
    (hfront : ∀ c ∈ front, isBlank c = true) (hback : ∀ c ∈ back, isBlank c = true) :
    trim (front ++ text ++ back) = text := by
  rw [List.append_assoc, trim_append_left hfront, trim_append_right hback, h.trim_eq]

theorem IsSolid.append {text rest : List Char} (h : IsSolid text) (hrest : IsSolid rest)
    (between : List Char) : IsSolid (text ++ (between ++ rest)) where
  first := by
    obtain ⟨c, tail, rfl, hc⟩ := h.first
    exact ⟨c, _, rfl, hc⟩
  last := by
    obtain ⟨front, c, rfl, hc⟩ := hrest.last
    exact ⟨text ++ (between ++ front), c, by simp, hc⟩

/-- A text is blank, or blanks surround a part of it that is not. -/
theorem blank_or_solid (text : List Char) :
    (∀ c ∈ text, isBlank c = true)
      ∨ ∃ front solid back, text = front ++ solid ++ back ∧ IsSolid solid
        ∧ (∀ c ∈ front, isBlank c = true) ∧ ∀ c ∈ back, isBlank c = true := by
  induction text with
  | nil => exact Or.inl fun _ hc => absurd hc List.not_mem_nil
  | cons c rest ih =>
    rcases ih with hblank | ⟨front, solid, back, rfl, hsolid, hfront, hback⟩
    · cases hc : isBlank c with
      | true => exact Or.inl (List.forall_mem_cons.mpr ⟨hc, hblank⟩)
      | false => exact Or.inr ⟨[], [c], rest, rfl, ⟨⟨c, [], rfl, hc⟩, ⟨[], c, rfl, hc⟩⟩,
          fun _ hd => absurd hd List.not_mem_nil, hblank⟩
    · cases hc : isBlank c with
      | true =>
        exact Or.inr ⟨c :: front, solid, back, rfl, hsolid, List.forall_mem_cons.mpr ⟨hc, hfront⟩,
          hback⟩
      | false =>
        obtain ⟨before, d, rfl, hd⟩ := hsolid.last
        refine Or.inr ⟨[], c :: (front ++ (before ++ [d])), back, rfl, ⟨⟨c, _, rfl, hc⟩, ?_⟩,
          fun _ hd => absurd hd List.not_mem_nil, hback⟩
        exact ⟨c :: (front ++ before), d, by simp, hd⟩

/-! ## Joining around a text -/

section

variable {blanks text : List Char}

theorem joinLinesFrom_append_of_blank (h : ∀ c ∈ blanks, isBlank c = true) (run rest : List Char) :
    joinLinesFrom run (blanks ++ rest) = joinLinesFrom (run ++ blanks) rest := by
  induction blanks generalizing run with
  | nil => rw [List.nil_append, List.append_nil]
  | cons c blanks ih =>
    rw [List.cons_append, joinLinesFrom, if_pos (h c List.mem_cons_self),
      ih fun d hd => h d (List.mem_cons_of_mem _ hd), List.append_assoc, List.singleton_append]

theorem joinLines_of_blank (h : ∀ c ∈ blanks, isBlank c = true) :
    joinLines blanks = settleRun blanks := by
  have hrun := joinLinesFrom_append_of_blank h [] []
  rw [List.append_nil] at hrun
  exact hrun

/-- A character that is not blank keeps the two sides of it apart. -/
theorem joinLinesFrom_append_cons {c : Char} (hc : isBlank c = false) (run front back : List Char) :
    joinLinesFrom run (front ++ c :: back) = joinLinesFrom run front ++ c :: joinLines back := by
  induction front generalizing run with
  | nil =>
    rw [List.nil_append, joinLinesFrom, joinLinesFrom, if_neg (by simp [hc])]
    rfl
  | cons d front ih =>
    rw [List.cons_append, joinLinesFrom, joinLinesFrom]
    split
    · exact ih _
    · rw [ih, List.append_assoc, List.cons_append]

theorem IsSolid.joinLinesFrom_append (h : IsSolid text) (run rest : List Char) :
    joinLinesFrom run (text ++ rest) = settleRun run ++ (joinLines text ++ joinLines rest) := by
  have hrun : joinLinesFrom run text = settleRun run ++ joinLines text := by
    obtain ⟨c, tail, rfl, hc⟩ := h.first
    rw [joinLinesFrom, if_neg (by simp [hc]), joinLines, joinLinesFrom, if_neg (by simp [hc])]
    rfl
  rw [← List.append_assoc, ← hrun]
  obtain ⟨front, c, rfl, hc⟩ := h.last
  rw [List.append_assoc, List.singleton_append, joinLinesFrom_append_cons hc,
    joinLinesFrom_append_cons hc, List.append_assoc]
  rfl

/-- Between blanks a text is joined by itself. -/
theorem IsSolid.joinLines_append (h : IsSolid text) {front : List Char}
    (hfront : ∀ c ∈ front, isBlank c = true) (rest : List Char) :
    joinLines (front ++ (text ++ rest)) = settleRun front ++ (joinLines text ++ joinLines rest) := by
  rw [joinLines, joinLinesFrom_append_of_blank hfront, List.nil_append, h.joinLinesFrom_append]

theorem IsSolid.joinLines_margins (h : IsSolid text) {front back : List Char}
    (hfront : ∀ c ∈ front, isBlank c = true) (hback : ∀ c ∈ back, isBlank c = true) :
    joinLines (front ++ text ++ back) = settleRun front ++ joinLines text ++ settleRun back := by
  rw [List.append_assoc, h.joinLines_append hfront, joinLines_of_blank hback, List.append_assoc]

/-- Brackets stay around what they enclose. -/
theorem joinLines_bracketed (inner : List Char) :
    joinLines ('[' :: (inner ++ [']'])) = '[' :: (joinLines inner ++ [']']) :=
  (joinLinesFrom_append_cons rfl [] [] _).trans
    (congrArg ('[' :: ·) (joinLinesFrom_append_cons rfl [] inner []))

theorem IsSolid.joined (h : IsSolid text) : IsSolid (joinLines text) where
  first := by
    obtain ⟨c, rest, rfl, hc⟩ := h.first
    exact ⟨c, joinLines rest, joinLinesFrom_append_cons hc [] [] rest, hc⟩
  last := by
    obtain ⟨front, c, rfl, hc⟩ := h.last
    exact ⟨joinLines front, c, joinLinesFrom_append_cons hc [] front [], hc⟩

/-- Blanks around a text do not count once its lines are joined. -/
theorem joinLines_trim (text : List Char) : joinLines (trim text) = trim (joinLines text) := by
  rcases blank_or_solid text with hblank | ⟨front, solid, back, rfl, hsolid, hfront, hback⟩
  · rw [trim_of_blank hblank, joinLines_of_blank hblank, trim_of_blank (isBlank_of_mem_settleRun hblank)]
    rfl
  · rw [hsolid.trim_margins hfront hback, hsolid.joinLines_margins hfront hback]
    exact (hsolid.joined.trim_margins (isBlank_of_mem_settleRun hfront)
      (isBlank_of_mem_settleRun hback)).symm

end

end Text

namespace Document

/-! ## Joining lines -/

theorem newline_not_mem_trim {line : List Char} (h : '\n' ∉ line) : '\n' ∉ trim line :=
  fun hmem => h ((infix_trim line).subset hmem)

theorem solidLines_solidLines (lines : List (List Char)) :
    solidLines (solidLines lines) = solidLines lines := by
  induction lines with
  | nil => rfl
  | cons line rest ih =>
    by_cases hblank : trim line = []
    · rw [solidLines_cons_of_blank hblank, ih]
    · rw [solidLines_cons_of_solid hblank, solidLines_cons_of_solid (by rwa [trim_trim]), trim_trim, ih]

/-- Joined, each line that says something stands behind a space. -/
theorem joinLinesFrom_lines {run : List Char} (hrun : ∀ c ∈ run, isBlank c = true)
    {lines : List (List Char)} (h : ∀ line ∈ lines, '\n' ∉ line) :
    ∃ tail, (∀ c ∈ tail, isBlank c = true)
      ∧ joinLinesFrom run (lines.flatMap ('\n' :: ·))
        = (solidLines lines).flatMap (' ' :: ·) ++ tail := by
  induction lines generalizing run with
  | nil => exact ⟨settleRun run, isBlank_of_mem_settleRun hrun, rfl⟩
  | cons line rest ih =>
    rw [List.forall_mem_cons] at h
    rw [List.flatMap_cons]
    rcases blank_or_solid line with hblank | ⟨front, solid, back, rfl, hsolid, hfront, hback⟩
    · have hbreak : ∀ c ∈ '\n' :: line, isBlank c = true := List.forall_mem_cons.mpr ⟨rfl, hblank⟩
      rw [joinLinesFrom_append_of_blank hbreak, solidLines_cons_of_blank (trim_of_blank hblank)]
      exact ih (List.forall_mem_append.mpr ⟨hrun, hbreak⟩) h.2
    · -- the run before the solid part holds the line break, and the run behind it goes on below
      have hbreak : ∀ c ∈ '\n' :: front, isBlank c = true := List.forall_mem_cons.mpr ⟨rfl, hfront⟩
      have htrim : trim (front ++ solid ++ back) = solid := hsolid.trim_margins hfront hback
      have hline : '\n' ∉ solid := by
        rw [← htrim]
        exact newline_not_mem_trim h.1
      have hsettle : settleRun (run ++ '\n' :: front) = [' '] := by
        rw [settleRun, if_pos (by simp)]
      obtain ⟨tail, htail, hrest⟩ := ih hback h.2
      refine ⟨tail, htail, ?_⟩
      have hsplit : '\n' :: (front ++ solid ++ back) ++ rest.flatMap ('\n' :: ·)
          = ('\n' :: front) ++ (solid ++ (back ++ rest.flatMap ('\n' :: ·))) := by simp
      rw [hsplit, joinLinesFrom_append_of_blank hbreak, hsolid.joinLinesFrom_append, hsettle,
        joinLines_of_not_mem hline, joinLines, joinLinesFrom_append_of_blank hback, List.nil_append,
        hrest, solidLines_cons_of_solid (by rw [htrim]; exact hsolid.ne_nil), htrim]
      simp

theorem trim_joinLines_lines {lines : List (List Char)} (h : ∀ line ∈ lines, '\n' ∉ line) :
    trim (joinLines (lines.flatMap ('\n' :: ·))) = trim ((solidLines lines).flatMap (' ' :: ·)) := by
  obtain ⟨tail, htail, hjoined⟩ :=
    @joinLinesFrom_lines [] (fun _ hc => absurd hc List.not_mem_nil) lines h
  rw [joinLines, hjoined, trim_append_right htail]

/-- The lines of a value, trimmed and without the blank ones, are joined to the same. -/
theorem trim_joinLines_gathered {first : List Char} {lines : List (List Char)}
    (h : ∀ line ∈ first :: lines, '\n' ∉ line) :
    trim (joinLines (trim first ++ (solidLines lines).flatMap ('\n' :: ·)))
      = trim (joinLines (first ++ lines.flatMap ('\n' :: ·))) := by
  have hbreak : ∀ c ∈ ['\n'], isBlank c = true := List.all_eq_true.mp rfl
  have hlines : ∀ (first : List Char) (lines : List (List Char)),
      (∀ line ∈ first :: lines, '\n' ∉ line) →
      trim (joinLines (first ++ lines.flatMap ('\n' :: ·)))
        = trim ((solidLines (first :: lines)).flatMap (' ' :: ·)) := by
    intro first lines hfree
    rw [← trim_joinLines_lines hfree, ← joinLines_trim, ← joinLines_trim, ← trim_append_left hbreak]
    rfl
  have hgathered : ∀ line ∈ trim first :: solidLines lines, '\n' ∉ line := by
    rw [List.forall_mem_cons] at h ⊢
    refine ⟨newline_not_mem_trim h.1, fun line hline => ?_⟩
    obtain ⟨raw, hraw, rfl⟩ := List.mem_map.mp (List.mem_filter.mp hline).1
    exact newline_not_mem_trim (h.2 raw hraw)
  have hsame : solidLines (trim first :: solidLines lines) = solidLines (first :: lines) := by
    have happend := solidLines_append [trim first] (solidLines lines)
    rw [solidLines_solidLines] at happend
    have htrim : solidLines [trim first] = solidLines [first] := by simp [solidLines, trim_trim]
    rw [List.singleton_append, htrim, ← solidLines_append] at happend
    exact happend
  rw [hlines _ _ hgathered, hlines _ _ h, hsame]

/-! ## Gathering lines -/

section

variable {opening closing : Char}

theorem balance_append (text rest : List Char) :
    balance opening closing (text ++ rest)
      = balance opening closing text + balance opening closing rest := by
  simp only [balance, List.count_append]
  omega

theorem balance_of_blank (ho : isBlank opening = false) (hc : isBlank closing = false)
    {text : List Char} (h : ∀ c ∈ text, isBlank c = true) : balance opening closing text = 0 := by
  have hcount : ∀ {mark : Char}, isBlank mark = false → text.count mark = 0 := by
    intro mark hmark
    rw [List.count_eq_zero]
    intro hmem
    rw [h mark hmem] at hmark
    exact absurd hmark (by decide)
  rw [balance, hcount ho, hcount hc]
  rfl

theorem balance_trim (ho : isBlank opening = false) (hc : isBlank closing = false)
    (text : List Char) : balance opening closing (trim text) = balance opening closing text := by
  rcases blank_or_solid text with hblank | ⟨front, solid, back, rfl, hsolid, hfront, hback⟩
  · rw [trim_of_blank hblank, balance_of_blank ho hc hblank]
    rfl
  · rw [hsolid.trim_margins hfront hback, balance_append, balance_append,
      balance_of_blank ho hc hfront, balance_of_blank ho hc hback]
    omega

/-- An open value takes the next line, if it says something. -/
theorem gatherBlock_of_open {text : List Char} (h : 0 < balance opening closing text)
    (line : List Char) (rest : List (List Char)) :
    gatherBlock opening closing text (line :: rest)
      = gatherBlock opening closing (text ++ (solidLines [line]).flatMap ('\n' :: ·)) rest := by
  rw [gatherBlock, if_neg (Int.not_le.mpr h)]
  by_cases hblank : trim line = []
  · rw [solidLines_cons_of_blank hblank, hblank, List.isEmpty_nil, if_pos rfl]
    exact congrArg (gatherBlock opening closing · rest) (List.append_nil text).symm
  · rw [solidLines_cons_of_solid hblank, List.isEmpty_eq_false_iff.mpr hblank,
      if_neg Bool.false_ne_true]
    simp [solidLines]

/-- What a line adds to a value has the balance of the line. -/
theorem balance_append_solidLines (ho : isBlank opening = false) (hc : isBlank closing = false)
    (text line : List Char) :
    balance opening closing (text ++ (solidLines [line]).flatMap ('\n' :: ·))
      = balance opening closing (text ++ '\n' :: line) := by
  have hbreak : ∀ line : List Char,
      balance opening closing ('\n' :: line) = balance opening closing line := by
    intro line
    have hsplit : '\n' :: line = ['\n'] ++ line := rfl
    rw [hsplit, balance_append, balance_of_blank ho hc (List.all_eq_true.mp rfl), Int.zero_add]
  rw [balance_append, balance_append, hbreak, ← balance_trim ho hc line]
  by_cases hblank : trim line = []
  · rw [solidLines_cons_of_blank hblank, hblank]
    rfl
  · have hline : (solidLines [line]).flatMap ('\n' :: ·) = '\n' :: trim line := by
      rw [solidLines_cons_of_solid hblank]
      simp [solidLines]
    rw [hline, hbreak]

/-- A value that is open before each of its lines and closed behind the last one is gathered from
    just these. -/
theorem gatherBlock_lines (ho : isBlank opening = false) (hc : isBlank closing = false)
    {text : List Char} {lines : List (List Char)}
    (hopen : ∀ front line back, lines = front ++ line :: back →
      0 < balance opening closing (text ++ front.flatMap ('\n' :: ·)))
    (hclosed : balance opening closing (text ++ lines.flatMap ('\n' :: ·)) ≤ 0)
    (rest : List (List Char)) :
    gatherBlock opening closing text (lines.map trim ++ rest)
      = (text ++ (solidLines lines).flatMap ('\n' :: ·), rest) := by
  induction lines generalizing text with
  | nil =>
    rw [List.flatMap_nil, List.append_nil] at hclosed
    exact (gatherBlock_of_balance hclosed rest).trans (by simp [solidLines])
  | cons line lines ih =>
    have hfirst := hopen [] line lines rfl
    rw [List.flatMap_nil, List.append_nil] at hfirst
    have htrim : solidLines [trim line] = solidLines [line] := by simp [solidLines, trim_trim]
    have hsame : ∀ later : List (List Char),
        balance opening closing
            (text ++ (solidLines [line]).flatMap ('\n' :: ·) ++ later.flatMap ('\n' :: ·))
          = balance opening closing (text ++ (line :: later).flatMap ('\n' :: ·)) := by
      intro later
      rw [balance_append, balance_append_solidLines ho hc, ← balance_append, List.append_assoc]
      rfl
    rw [List.map_cons, List.cons_append, gatherBlock_of_open hfirst, htrim]
    refine (ih (fun front next back heq => ?_) ?_).trans ?_
    · rw [hsame]
      exact hopen (line :: front) next back (by rw [heq]; rfl)
    · rwa [hsame]
    · have hlines : solidLines (line :: lines) = solidLines [line] ++ solidLines lines :=
        solidLines_append [line] lines
      rw [hlines, List.flatMap_append, List.append_assoc]

end

end Document

/-! ## Items of an array on several lines -/

namespace Scope

variable {expression? : Option (List Char → Except Fault Value)} {scope : Scope}

/-- Joined, an array has its brackets exactly if the text has them. -/
theorem exists_bracketed {raw inner : List Char}
    (h : trim (joinLines raw) = '[' :: (joinLines inner ++ [']'])) :
    ∃ kept, trim raw = '[' :: (kept ++ [']']) ∧ joinLines kept = joinLines inner := by
  rw [← joinLines_trim] at h
  obtain ⟨front, rest, hraw, hfront, hrest⟩ := @joinLines_eq_append_cons _ [] _ '[' rfl h
  obtain ⟨-, rfl⟩ := joinLinesFrom_eq_nil hfront
  obtain ⟨kept, back, rfl, hkept, hback⟩ := @joinLines_eq_append_cons _ _ [] ']' rfl hrest
  obtain ⟨-, rfl⟩ := joinLinesFrom_eq_nil hback
  exact ⟨kept, hraw, hkept⟩

theorem itemTexts_bracketed (inner : List Char) :
    itemTexts ('[' :: (inner ++ [']']))
      = ((Scan.splitTopLevel ',' (trim (joinLines inner))).map trim).filter (!·.isEmpty) := by
  rw [itemTexts, bracketContent, between?_append_singleton, Option.getD_some, joinLines_trim]

/-- An array resolves to the array of its items. -/
theorem resolveBy_bracketed {raw inner : List Char} (h : trim raw = '[' :: (inner ++ [']'])) :
    scope.resolveBy expression? raw
      = ((itemTexts ('[' :: (inner ++ [']']))).mapM (scope.resolveBy expression?)).map
          Value.array := by
  have hne : trim raw ≠ [] := by simp [h]
  have henv : scope.env.expand? (trim raw) = none :=
    scope.env.expand?_of_head_ne (by simp [h])
  have htrim : trim (trim raw) = '[' :: (inner ++ [']']) := by rw [trim_trim, h]
  rw [resolveBy_of_simple expression? scope hne henv (isSimpleLiteral_of_bracketed htrim),
    Literal.ofText_of_bracketed htrim]
  rfl

/-- Where the lines of an array break does not change what it resolves to. -/
theorem resolveBy_of_joinLines {raw inner : List Char}
    (h : trim (joinLines raw) = '[' :: (joinLines inner ++ [']'])) :
    scope.resolveBy expression? raw = scope.resolveBy expression? ('[' :: (inner ++ [']'])) := by
  obtain ⟨kept, hraw, hkept⟩ := exists_bracketed h
  have htrim := (isSolid_bracketed inner).trim_eq
  rw [resolveBy_bracketed hraw, resolveBy_bracketed htrim, itemTexts_bracketed, itemTexts_bracketed,
    hkept]

end Scope

end ConfigLang
