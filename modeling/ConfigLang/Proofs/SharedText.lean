import ConfigLang.Document.Block
import ConfigLang.Environment
import ConfigLang.Literal
import ConfigLang.Scan.Comment

set_option autoImplicit false

/-! # Texts on whose variables two environments agree

Two environments may tell a text apart only by the variables that it names. This file states that
they agree on these (`Shared`), together with what keeps the names whole when a text is cut, when its
lines are joined, and when groups in it are replaced: no line ends and no group begins inside a
reference. -/

namespace ConfigLang

open Text

namespace Environment

/-! ## The names in a text -/

/-- The names of the references to variables that stand anywhere in a text. -/
def names : List Char → List (List Char)
  | [] => []
  | c :: rest => (reference? (c :: rest)).toList ++ names rest

/-- Whether no group begins and no line ends inside a reference, where a reference that is not
    closed reaches to the end of the text. -/
def closesReferences : List Char → Bool
  | [] => true
  | c :: rest =>
    (match behind? opening (c :: rest) with
      | none => true
      | some tail =>
        let name := tail.takeWhile (· != '\x7d')
        !name.contains '(' && (!tail.contains '\x7d' || !name.contains '\n'))
      && closesReferences rest

theorem behind?_opening (tail : List Char) : behind? opening (opening ++ tail) = some tail := by
  have hlead : opening.isPrefixOf (opening ++ tail) = true := by
    rw [List.isPrefixOf_iff_prefix]
    exact List.prefix_append _ _
  rw [behind?, if_pos hlead, List.drop_left]

theorem reference?_eq {name rest : List Char} (hclose : '\x7d' ∉ name) (hne : name ≠ []) :
    reference? (opening ++ (name ++ '\x7d' :: rest)) = some name := by
  rw [reference?, behind?_opening, Option.bind_some, cutFirst?_append_cons hclose]
  simp [hne]

/-- A reference begins a text, and its name runs up to the brace that closes it. -/
theorem reference?_eq_some {text name : List Char} (h : reference? text = some name) :
    ∃ rest, text = opening ++ (name ++ '\x7d' :: rest) ∧ '\x7d' ∉ name ∧ name ≠ [] := by
  unfold reference? at h
  split at h
  next found rest hfound =>
    obtain ⟨tail, hbehind, hcut⟩ := Option.bind_eq_some_iff.mp hfound
    have htext : text = opening ++ tail := by
      unfold behind? at hbehind
      split at hbehind
      next hlead =>
        obtain ⟨back, rfl⟩ := List.isPrefixOf_iff_prefix.mp hlead
        rw [List.drop_left, Option.some_inj] at hbehind
        rw [hbehind]
      next => exact absurd hbehind (by simp)
    split at h
    next => exact absurd h (by simp)
    next hne =>
      obtain rfl := Option.some.inj h
      obtain ⟨rfl, hclose⟩ := cutFirst?_eq_some hcut
      exact ⟨rest, htext, hclose, by simpa using hne⟩
  next => exact absurd h (by simp)

theorem mem_names {text name : List Char} (h : opening ++ name ++ ['\x7d'] <:+: text)
    (hclose : '\x7d' ∉ name) (hne : name ≠ []) : name ∈ names text := by
  obtain ⟨front, back, rfl⟩ := h
  induction front with
  | nil =>
    have href : reference? (opening ++ (name ++ '\x7d' :: back)) = some name :=
      reference?_eq hclose hne
    have hcons : [] ++ (opening ++ name ++ ['\x7d']) ++ back
        = '$' :: ("ENV\x7b".toList ++ (name ++ '\x7d' :: back)) := by
      simp [opening]
    rw [hcons, names]
    refine List.mem_append_left _ ?_
    rw [Option.mem_toList]
    exact href
  | cons c front ih => exact List.mem_append_right _ ih

/-- What a check of all references says about each of them. -/
theorem closesReferences_spec {text tail : List Char} (h : closesReferences text = true)
    (htail : opening ++ tail <:+ text) :
    '(' ∉ tail.takeWhile (· != '\x7d')
      ∧ ('\x7d' ∈ tail → '\n' ∉ tail.takeWhile (· != '\x7d')) := by
  obtain ⟨front, rfl⟩ := htail
  induction front with
  | nil =>
    have hcons : [] ++ (opening ++ tail) = '$' :: ("ENV\x7b".toList ++ tail) := rfl
    have hbehind : behind? opening ('$' :: ("ENV\x7b".toList ++ tail)) = some tail :=
      behind?_opening tail
    rw [hcons, closesReferences, hbehind, Bool.and_eq_true] at h
    have hname : '(' ∉ tail.takeWhile (· != '\x7d')
        ∧ ('\x7d' ∉ tail ∨ '\n' ∉ tail.takeWhile (· != '\x7d')) := by simpa using h.1
    exact ⟨hname.1, fun hmem => hname.2.resolve_left (not_not_intro hmem)⟩
  | cons c front ih =>
    rw [List.cons_append, closesReferences, Bool.and_eq_true] at h
    exact ih h.2

end Environment

open Environment (opening)

/-! ## Shared texts -/

/-- A text of which every reference to a variable is closed on its line, before any group begins, and
    names a variable on which two environments agree. -/
structure Shared (env₁ env₂ : Environment) (text : List Char) : Prop where
  agrees : ∀ name, opening ++ name ++ ['\x7d'] <:+: text → '\x7d' ∉ name → name ≠ [] →
    env₁.get? (String.ofList name) = env₂.get? (String.ofList name)
  on_line : ∀ name, opening ++ name ++ ['\x7d'] <:+: text → '\x7d' ∉ name → '\n' ∉ name
  ungrouped : ∀ name, opening ++ name ++ ['('] <:+: text → '\x7d' ∈ name

namespace Shared

variable {env₁ env₂ : Environment} {text : List Char}

theorem of_isInfix (h : Shared env₁ env₂ text) {part : List Char} (hpart : part <:+: text) :
    Shared env₁ env₂ part where
  agrees name hname := h.agrees name (hname.trans hpart)
  on_line name hname := h.on_line name (hname.trans hpart)
  ungrouped name hname := h.ungrouped name (hname.trans hpart)

theorem expand?_eq (h : Shared env₁ env₂ text) : env₁.expand? text = env₂.expand? text := by
  unfold Environment.expand?
  cases hname : Environment.reference? text with
  | none => rfl
  | some name =>
    obtain ⟨rest, rfl, hclose, hne⟩ := Environment.reference?_eq_some hname
    have hagree := h.agrees name ⟨[], rest, by simp⟩ hclose hne
    rw [Option.map_some, Option.map_some, hagree]

/-- A reference in joined lines is one of the text, as no line ends inside it. -/
theorem joinLines (h : Shared env₁ env₂ text) : Shared env₁ env₂ (Text.joinLines text) := by
  -- neither the beginning nor the end of a reference is blank, so both come from the text
  have hback : ∀ {name : List Char} {c : Char}, isBlank c = false →
      opening ++ name ++ [c] <:+: Text.joinLines text →
      ∃ name', opening ++ name' ++ [c] <:+: text ∧ Text.joinLines name' = name := by
    rintro name c hc ⟨front, back, heq⟩
    have hdollar : Text.joinLines text
        = front ++ '$' :: ("ENV\x7b".toList ++ (name ++ c :: back)) := by
      rw [← heq]
      simp [opening]
    obtain ⟨front', rest, rfl, -, hrest⟩ := joinLines_eq_append_cons rfl hdollar
    have hword : ∀ d ∈ "ENV\x7b".toList, isBlank d = false := by
      intro d hd
      have hall : "ENV\x7b".toList.all (!isBlank ·) = true := rfl
      simpa using List.all_eq_true.mp hall d hd
    obtain ⟨tail, rfl, htail⟩ := joinLines_eq_append hword hrest
    obtain ⟨name', back', rfl, hname, -⟩ := joinLines_eq_append_cons hc htail
    exact ⟨name', ⟨front', back', by simp [opening]⟩, hname⟩
  have hbrace : ∀ {name : List Char}, '\x7d' ∉ Text.joinLines name → '\x7d' ∉ name :=
    fun hclose hmem => hclose (mem_joinLinesFrom rfl hmem)
  refine ⟨?_, ?_, ?_⟩
  · intro name hname hclose hne
    obtain ⟨name', hname', rfl⟩ := hback rfl hname
    have hline := h.on_line name' hname' (hbrace hclose)
    rw [joinLines_of_not_mem hline] at hne ⊢
    exact h.agrees name' hname' (hbrace hclose) hne
  · intro name hname hclose
    obtain ⟨name', hname', rfl⟩ := hback rfl hname
    have hline := h.on_line name' hname' (hbrace hclose)
    rw [joinLines_of_not_mem hline]
    exact hline
  · intro name hname
    obtain ⟨name', hname', rfl⟩ := hback rfl hname
    exact mem_joinLinesFrom rfl (h.ungrouped name' hname')

/-- The items of an array. -/
theorem item (h : Shared env₁ env₂ text) {part : List Char} (hpart : part ∈ itemTexts text) :
    Shared env₁ env₂ part := by
  simp only [itemTexts, List.mem_filter, List.mem_map] at hpart
  obtain ⟨⟨piece, hpiece, rfl⟩, -⟩ := hpart
  have hcontent : bracketContent text <:+: text := by
    unfold bracketContent
    cases hinner : between? '[' ']' text with
    | none => exact List.infix_refl _
    | some inner => exact ⟨['['], [']'], by rw [between?_eq_some hinner]; rfl⟩
  have hjoined := (h.of_isInfix ((infix_trim _).trans hcontent)).joinLines
  exact hjoined.of_isInfix ((infix_trim piece).trans (Scan.infix_of_mem_splitTopLevel hpiece))

end Shared

/-! ## Lines -/

theorem newline_not_mem_opening : '\n' ∉ opening := by decide

/-- The last reference of a text is not closed in it. -/
def IsPending (text : List Char) : Prop :=
  ∃ name, opening ++ name <:+ text ∧ '\x7d' ∉ name

/-- A reference in two parts that a line break joins stands in one of them, or in both. -/
theorem infix_lines {front back name : List Char} {c : Char} (hc : c ≠ '\n')
    (h : opening ++ name ++ [c] <:+: front ++ '\n' :: back) :
    opening ++ name ++ [c] <:+: front ∨ opening ++ name ++ [c] <:+: back
      ∨ ∃ name' tail, name = name' ++ '\n' :: tail ∧ opening ++ name' <:+ front
        ∧ tail ++ [c] <+: back := by
  obtain ⟨x, y, heq⟩ := h
  have hassoc : x ++ (opening ++ (name ++ c :: y)) = front ++ '\n' :: back := by
    rw [← heq]
    simp
  rcases append_eq_append_cons hassoc with ⟨part, rfl, hpart⟩ | ⟨part, -, rfl⟩
  · rcases append_eq_append_cons hpart with ⟨part, rfl, hname⟩ | ⟨part, hopening, -⟩
    · rcases append_eq_append_cons hname with ⟨part, rfl, hlast⟩ | ⟨tail, rfl, rfl⟩
      · cases part with
        | nil => exact absurd (List.cons.inj hlast).1 hc
        | cons d part =>
          obtain ⟨rfl, -⟩ := List.cons.inj hlast
          exact Or.inl ⟨x, part, by simp⟩
      · exact Or.inr (Or.inr ⟨part, tail, rfl, ⟨x, rfl⟩, ⟨y, by simp⟩⟩)
    · exact absurd (by rw [hopening]; simp) newline_not_mem_opening
  · exact Or.inr (Or.inl ⟨part, y, by simp⟩)

section

variable {env₁ env₂ : Environment}

theorem Shared.append_newline {front back : List Char} (hfront : Shared env₁ env₂ front)
    (hback : Shared env₁ env₂ back) (hpending : IsPending front → '(' ∉ back ∧ '\x7d' ∉ back) :
    Shared env₁ env₂ (front ++ '\n' :: back) := by
  have hnone : ∀ {name name' tail : List Char} {c : Char}, name = name' ++ '\n' :: tail →
      '\x7d' ∉ name → opening ++ name' <:+ front → tail ++ [c] <+: back → c ≠ '(' ∧ c ≠ '\x7d' := by
    rintro name name' tail c rfl hclose hfront' ⟨rest, rfl⟩
    have hname' : '\x7d' ∉ name' := fun hmem => hclose (List.mem_append_left _ hmem)
    obtain ⟨hopen, hshut⟩ := hpending ⟨name', hfront', hname'⟩
    refine ⟨?_, ?_⟩
    · rintro rfl
      exact hopen (by simp)
    · rintro rfl
      exact hshut (by simp)
  refine ⟨?_, ?_, ?_⟩
  · intro name hname hclose hne
    rcases infix_lines (by decide) hname with h | h | ⟨name', tail, heq, hsuffix, hprefix⟩
    · exact hfront.agrees name h hclose hne
    · exact hback.agrees name h hclose hne
    · exact absurd rfl (hnone heq hclose hsuffix hprefix).2
  · intro name hname hclose
    rcases infix_lines (by decide) hname with h | h | ⟨name', tail, heq, hsuffix, hprefix⟩
    · exact hfront.on_line name h hclose
    · exact hback.on_line name h hclose
    · exact absurd rfl (hnone heq hclose hsuffix hprefix).2
  · intro name hname
    by_cases hclose : '\x7d' ∈ name
    · exact hclose
    · rcases infix_lines (by decide) hname with h | h | ⟨name', tail, heq, hsuffix, hprefix⟩
      · exact hfront.ungrouped name h
      · exact hback.ungrouped name h
      · exact absurd rfl (hnone heq hclose hsuffix hprefix).1

theorem isPending_append_newline {front back : List Char} (h : IsPending (front ++ '\n' :: back)) :
    IsPending front ∨ IsPending back := by
  obtain ⟨name, ⟨x, heq⟩, hclose⟩ := h
  rcases append_eq_append_cons heq with ⟨part, rfl, hpart⟩ | ⟨part, -, rfl⟩
  · rcases append_eq_append_cons hpart with ⟨part, rfl, rfl⟩ | ⟨part, hopening, -⟩
    · exact Or.inl ⟨part, ⟨x, rfl⟩, fun hmem => hclose (List.mem_append_left _ hmem)⟩
    · exact absurd (by rw [hopening]; simp) newline_not_mem_opening
  · exact Or.inr ⟨name, ⟨part, rfl⟩, hclose⟩

/-- Lines that are shared each, with nothing behind a reference that is not closed on its line that
    could close it or begin a group. -/
def SharedLines (env₁ env₂ : Environment) : List (List Char) → Prop
  | [] => True
  | line :: rest =>
    Shared env₁ env₂ line ∧ (IsPending line → ∀ l ∈ rest, '(' ∉ l ∧ '\x7d' ∉ l)
      ∧ SharedLines env₁ env₂ rest

/-- The lines of a shared text. -/
theorem sharedLines_of_intercalate {lines : List (List Char)}
    (h : Shared env₁ env₂ (['\n'].intercalate lines)) : SharedLines env₁ env₂ lines := by
  induction lines with
  | nil => trivial
  | cons line rest ih =>
    cases rest with
    | nil =>
      rw [List.intercalate_singleton] at h
      exact ⟨h, fun _ _ hmem => absurd hmem List.not_mem_nil, trivial⟩
    | cons next others =>
      rw [List.intercalate_cons_cons, List.append_assoc, List.singleton_append] at h
      generalize hback : ['\n'].intercalate (next :: others) = back at h ih
      refine ⟨h.of_isInfix ⟨[], '\n' :: back, by simp⟩, ?_,
        ih (h.of_isInfix ⟨line ++ ['\n'], [], by simp⟩)⟩
      rintro ⟨name, ⟨x, rfl⟩, hclose⟩
      -- a brace behind the line would close the reference over a line break
      have hshut : '\x7d' ∉ back := by
        intro hmem
        obtain ⟨tail, rest, heq, htail⟩ := List.eq_append_cons_of_mem hmem
        have hname : opening ++ (name ++ '\n' :: tail) ++ ['\x7d']
            <:+: x ++ (opening ++ name) ++ '\n' :: back := ⟨x, rest, by rw [heq]; simp⟩
        refine h.on_line _ hname ?_ (by simp)
        simp [hclose, htail]
      -- and without a brace any group behind the line would begin inside the reference
      have hopen : '(' ∉ back := by
        intro hmem
        obtain ⟨tail, rest, heq⟩ := List.append_of_mem hmem
        have hname : opening ++ (name ++ '\n' :: tail) ++ ['(']
            <:+: x ++ (opening ++ name) ++ '\n' :: back := ⟨x, rest, by rw [heq]; simp⟩
        have hbrace : '\x7d' ∈ name ++ '\n' :: tail := h.ungrouped _ hname
        rw [heq] at hshut
        simp only [List.mem_append, List.mem_cons, not_or] at hbrace hshut
        simp [hclose, hshut.1] at hbrace
      intro line' hline'
      rw [← hback] at hopen hshut
      exact ⟨fun hmem => hopen (mem_intercalate_of_mem hline' hmem),
        fun hmem => hshut (mem_intercalate_of_mem hline' hmem)⟩

namespace SharedLines

variable {line : List Char} {rest : List (List Char)}

/-- The end of a line may stand for the line, blanks behind it aside. -/
theorem cut (h : SharedLines env₁ env₂ (line :: rest)) {front part back : List Char}
    (heq : line = front ++ part ++ back) (hblank : ∀ c ∈ back, isBlank c = true) :
    SharedLines env₁ env₂ (part :: rest) := by
  obtain ⟨hline, hpending, hrest⟩ := h
  refine ⟨hline.of_isInfix ⟨front, back, heq.symm⟩, ?_, hrest⟩
  rintro ⟨name, ⟨x, rfl⟩, hclose⟩
  refine hpending ⟨name ++ back, ⟨front ++ x, by rw [heq]; simp⟩, ?_⟩
  rw [List.mem_append, not_or]
  exact ⟨hclose, fun hmem => absurd (hblank _ hmem) (by decide)⟩

theorem trim (h : SharedLines env₁ env₂ (line :: rest)) :
    SharedLines env₁ env₂ (Text.trim line :: rest) := by
  obtain ⟨front, back, heq, hblank⟩ := exists_trim_append line
  exact h.cut heq hblank

theorem map_trim {lines : List (List Char)} (h : SharedLines env₁ env₂ lines) :
    SharedLines env₁ env₂ (lines.map Text.trim) := by
  induction lines with
  | nil => trivial
  | cons line rest ih =>
    obtain ⟨hline, hpending, -⟩ := h.trim
    refine ⟨hline, fun hopen l hl => ?_, ih h.2.2⟩
    obtain ⟨l', hl', rfl⟩ := List.mem_map.mp hl
    obtain ⟨hgroup, hclose⟩ := hpending hopen l' hl'
    have hsubset := (infix_trim l').subset
    exact ⟨fun hmem => hgroup (hsubset hmem), fun hmem => hclose (hsubset hmem)⟩

/-- The next line may be left out. -/
theorem skip {next : List Char} (h : SharedLines env₁ env₂ (line :: next :: rest)) :
    SharedLines env₁ env₂ (line :: rest) :=
  ⟨h.1, fun hopen l hl => h.2.1 hopen l (List.mem_cons_of_mem _ hl), h.2.2.2.2⟩

/-- The next line may be joined to a line. -/
theorem join {next : List Char} (h : SharedLines env₁ env₂ (line :: next :: rest)) :
    SharedLines env₁ env₂ ((line ++ '\n' :: next) :: rest) := by
  obtain ⟨hline, hpending, hnext, hpendingNext, hrest⟩ := h
  refine ⟨hline.append_newline hnext fun hopen => hpending hopen next List.mem_cons_self, ?_, hrest⟩
  intro hopen l hl
  rcases isPending_append_newline hopen with hopen | hopen
  · exact hpending hopen l (List.mem_cons_of_mem _ hl)
  · exact hpendingNext hopen l hl

theorem gatherBlock {opened closed : Char} {text : List Char} {lines : List (List Char)}
    (h : SharedLines env₁ env₂ (text :: lines)) :
    SharedLines env₁ env₂ ((Document.gatherBlock opened closed text lines).1
      :: (Document.gatherBlock opened closed text lines).2) := by
  induction lines generalizing text with
  | nil => exact h
  | cons next rest ih =>
    unfold Document.gatherBlock
    split
    · exact h
    · split
      · exact ih h.skip
      · refine ih (SharedLines.join ⟨h.1, ?_, SharedLines.trim h.2.2⟩)
        intro hopen l hl
        rcases List.mem_cons.mp hl with rfl | hmem
        · obtain ⟨hgroup, hclose⟩ := h.2.1 hopen next List.mem_cons_self
          have hsubset := (infix_trim next).subset
          exact ⟨fun hmem => hgroup (hsubset hmem), fun hmem => hclose (hsubset hmem)⟩
        · exact h.2.1 hopen l (List.mem_cons_of_mem _ hmem)

/-- A value that spans lines, and the lines behind it. -/
theorem captureBlock {initial : List Char} {lines : List (List Char)}
    (h : SharedLines env₁ env₂ (initial :: lines)) :
    SharedLines env₁ env₂ ((Document.captureBlock initial lines).1
      :: (Document.captureBlock initial lines).2) := by
  unfold Document.captureBlock
  split
  · exact gatherBlock h
  · exact gatherBlock h
  · exact h

end SharedLines

end

/-! ## Documents -/

/-- A reference that no line break divides stands on one line. -/
theorem infix_line {lines : List (List Char)} {name : List Char} {c : Char} (hc : c ≠ '\n')
    (hname : '\n' ∉ name) (h : opening ++ name ++ [c] <:+: ['\n'].intercalate lines) :
    ∃ line ∈ lines, opening ++ name ++ [c] <:+: line := by
  induction lines with
  | nil =>
    have hnil := List.infix_nil.mp h
    exact absurd hnil (by simp)
  | cons line rest ih =>
    cases rest with
    | nil =>
      rw [List.intercalate_singleton] at h
      exact ⟨line, List.mem_cons_self, h⟩
    | cons next others =>
      rw [List.intercalate_cons_cons, List.append_assoc line, List.singleton_append] at h
      rcases infix_lines hc h with hline | hrest | ⟨name', tail, rfl, -, -⟩
      · exact ⟨line, List.mem_cons_self, hline⟩
      · obtain ⟨l, hl, hwithin⟩ := ih hrest
        exact ⟨l, List.mem_cons_of_mem _ hl, hwithin⟩
      · exact absurd (by simp) hname

/-- A document without block comments is shared, less its line comments, if it closes its references
    and the environments agree on its names. -/
theorem sharedLines_document {env₁ env₂ : Environment} {text : List Char}
    (hblocks : Scan.stripBlocks text = text)
    (hcloses : Environment.closesReferences (['\n'].intercalate (Scan.uncommentedLines text)) = true)
    (hagree : ∀ name ∈ Environment.names text,
      env₁.get? (String.ofList name) = env₂.get? (String.ofList name)) :
    SharedLines env₁ env₂ (Scan.uncommentedLines text) := by
  have htake : ∀ {name : List Char} (rest : List Char), '\x7d' ∉ name →
      (name ++ rest).takeWhile (· != '\x7d') = name ++ rest.takeWhile (· != '\x7d') := by
    intro name rest hclose
    apply List.takeWhile_append_of_pos
    intro c hc
    rw [bne_iff_ne]
    rintro rfl
    exact hclose hc
  have hline : ∀ name, opening ++ name ++ ['\x7d']
      <:+: ['\n'].intercalate (Scan.uncommentedLines text) → '\x7d' ∉ name → '\n' ∉ name := by
    rintro name ⟨front, back, heq⟩ hclose
    have htail : opening ++ (name ++ '\x7d' :: back)
        <:+ ['\n'].intercalate (Scan.uncommentedLines text) := ⟨front, by rw [← heq]; simp⟩
    have hspec := (Environment.closesReferences_spec hcloses htail).2 (by simp)
    rw [htake _ hclose] at hspec
    exact fun hmem => hspec (List.mem_append_left _ hmem)
  apply sharedLines_of_intercalate
  refine ⟨?_, hline, ?_⟩
  -- a name on one line stands in the document itself, which only loses the ends of lines
  · intro name hname hclose hne
    obtain ⟨line, hmem, hwithin⟩ := infix_line (by decide) (hline name hname hclose) hname
    have htext := hwithin.trans (Scan.infix_of_mem_uncommentedLines hblocks hmem)
    exact hagree name (Environment.mem_names htext hclose hne)
  · rintro name ⟨front, back, heq⟩
    by_cases hclose : '\x7d' ∈ name
    · exact hclose
    · have htail : opening ++ (name ++ '(' :: back)
          <:+ ['\n'].intercalate (Scan.uncommentedLines text) := ⟨front, by rw [← heq]; simp⟩
      have hspec := (Environment.closesReferences_spec hcloses htail).1
      rw [htake _ hclose] at hspec
      exact absurd (by simp) hspec

end ConfigLang
