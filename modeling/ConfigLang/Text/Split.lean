set_option autoImplicit false

/-! # Cutting a text in pieces

Cutting at every occurrence of a character, at its first or last occurrence, behind a fixed lead, and
between a first and a last character. Main statement: the pieces of `splitOn`, joined again, are the
text. -/

namespace ConfigLang.Text

/-- The pieces between the occurrences of `mark`; there is always at least one. -/
def splitOn (mark : Char) : List Char → List (List Char)
  | [] => [[]]
  | c :: rest =>
    if c = mark then [] :: splitOn mark rest
    else
      match splitOn mark rest with
      | [] => [[c]]
      | piece :: pieces => (c :: piece) :: pieces

theorem splitOn_ne_nil (mark : Char) (text : List Char) : splitOn mark text ≠ [] := by
  cases text with
  | nil => simp [splitOn]
  | cons c rest =>
    unfold splitOn
    split
    · simp
    · split <;> simp

/-- Joining the pieces with the mark gives the text back. -/
theorem intercalate_splitOn (mark : Char) (text : List Char) :
    [mark].intercalate (splitOn mark text) = text := by
  induction text with
  | nil => rfl
  | cons c rest ih =>
    have hne := splitOn_ne_nil mark rest
    unfold splitOn
    cases hrest : splitOn mark rest with
    | nil => exact absurd hrest hne
    | cons piece pieces =>
      rw [hrest] at ih
      by_cases hc : c = mark
      · subst hc
        simpa [List.intercalate, List.intersperse] using ih
      · cases pieces <;> simpa [hc, List.intercalate, List.intersperse] using ih

/-- Every piece but the first stands behind a mark. -/
theorem intercalate_cons_flatMap {α : Type} (mark : α) (piece : List α) (pieces : List (List α)) :
    [mark].intercalate (piece :: pieces) = piece ++ pieces.flatMap (mark :: ·) := by
  induction pieces generalizing piece with
  | nil => rw [List.intercalate_singleton, List.flatMap_nil, List.append_nil]
  | cons next others ih =>
    rw [List.intercalate_cons_cons, ih, List.flatMap_cons, List.append_assoc]
    rfl

theorem splitOn_of_not_mem {mark : Char} {text : List Char} (h : mark ∉ text) :
    splitOn mark text = [text] := by
  induction text with
  | nil => rfl
  | cons c rest ih =>
    simp only [List.mem_cons, not_or] at h
    have hc : ¬c = mark := fun heq => h.1 heq.symm
    rw [splitOn, if_neg hc, ih h.2]

theorem splitOn_append_cons {mark : Char} {piece : List Char} (h : mark ∉ piece)
    (rest : List Char) : splitOn mark (piece ++ mark :: rest) = piece :: splitOn mark rest := by
  induction piece with
  | nil => simp [splitOn]
  | cons c piece ih =>
    simp only [List.mem_cons, not_or] at h
    have hc : ¬c = mark := fun heq => h.1 heq.symm
    rw [List.cons_append, splitOn, if_neg hc, ih h.2]

/-- What stands before a text without the mark belongs to its first piece. -/
theorem splitOn_append_of_not_mem {mark : Char} {lead text first : List Char}
    {rest : List (List Char)} (h : mark ∉ lead) (htext : splitOn mark text = first :: rest) :
    splitOn mark (lead ++ text) = (lead ++ first) :: rest := by
  induction lead with
  | nil => exact htext
  | cons c lead ih =>
    rw [List.mem_cons, not_or] at h
    rw [List.cons_append, splitOn, if_neg fun heq => h.1 heq.symm, ih h.2]
    rfl

/-- A mark divides the pieces before it from those behind it. -/
theorem splitOn_append_mark (mark : Char) (front rest : List Char) :
    splitOn mark (front ++ mark :: rest) = splitOn mark front ++ splitOn mark rest := by
  induction front with
  | nil => simp [splitOn]
  | cons c front ih =>
    rw [List.cons_append, splitOn, splitOn, ih]
    split
    · rfl
    · cases hpieces : splitOn mark front with
      | nil => exact absurd hpieces (splitOn_ne_nil mark front)
      | cons piece pieces => rfl

/-- Pieces without the mark, joined with it, split into the same pieces. -/
theorem splitOn_intercalate {mark : Char} {pieces : List (List Char)} (hne : pieces ≠ [])
    (h : ∀ piece ∈ pieces, mark ∉ piece) :
    splitOn mark ([mark].intercalate pieces) = pieces := by
  induction pieces with
  | nil => exact absurd rfl hne
  | cons piece rest ih =>
    have hpiece := h piece List.mem_cons_self
    have hrest : ∀ p ∈ rest, mark ∉ p := fun p hp => h p (List.mem_cons_of_mem _ hp)
    cases rest with
    | nil => simpa [List.intercalate] using splitOn_of_not_mem hpiece
    | cons next others =>
      rw [List.intercalate_cons_cons, List.append_assoc, List.singleton_append,
        splitOn_append_cons hpiece, ih (by simp) hrest]

theorem mem_intercalate {mark c : Char} {pieces : List (List Char)}
    (h : c ∈ [mark].intercalate pieces) : c = mark ∨ ∃ piece ∈ pieces, c ∈ piece := by
  induction pieces with
  | nil => exact absurd h List.not_mem_nil
  | cons piece rest ih =>
    cases rest with
    | nil => exact Or.inr ⟨piece, List.mem_cons_self, by simpa using h⟩
    | cons next others =>
      rw [List.intercalate_cons_cons, List.mem_append, List.mem_append] at h
      rcases h with (hpiece | hmark) | hrest
      · exact Or.inr ⟨piece, List.mem_cons_self, hpiece⟩
      · exact Or.inl (List.mem_singleton.mp hmark)
      · rcases ih hrest with hc | ⟨found, hfound, hc⟩
        · exact Or.inl hc
        · exact Or.inr ⟨found, List.mem_cons_of_mem _ hfound, hc⟩

theorem infix_intercalate_of_mem {mark : Char} {pieces : List (List Char)} {piece : List Char}
    (hpiece : piece ∈ pieces) : piece <:+: [mark].intercalate pieces := by
  induction pieces with
  | nil => exact absurd hpiece List.not_mem_nil
  | cons first rest ih =>
    cases rest with
    | nil => exact ⟨[], [], by simpa using List.mem_singleton.mp hpiece⟩
    | cons next others =>
      rw [List.intercalate_cons_cons]
      rcases List.mem_cons.mp hpiece with rfl | hrest
      · exact ⟨[], [mark] ++ [mark].intercalate (next :: others), by simp⟩
      · exact (ih hrest).trans (List.suffix_append _ _).isInfix

theorem infix_of_mem_splitOn {mark : Char} {text piece : List Char}
    (h : piece ∈ splitOn mark text) : piece <:+: text := by
  have hpiece := @infix_intercalate_of_mem mark _ _ h
  rw [intercalate_splitOn] at hpiece
  exact hpiece

theorem not_mem_of_mem_splitOn {mark : Char} {text piece : List Char}
    (h : piece ∈ splitOn mark text) : mark ∉ piece := by
  induction text generalizing piece with
  | nil =>
    rw [List.mem_singleton.mp h]
    exact List.not_mem_nil
  | cons c rest ih =>
    rw [splitOn] at h
    split at h
    · rcases List.mem_cons.mp h with rfl | hrest
      · exact List.not_mem_nil
      · exact ih hrest
    next hc =>
      cases hpieces : splitOn mark rest with
      | nil => exact absurd hpieces (splitOn_ne_nil mark rest)
      | cons first pieces =>
        rw [hpieces] at h ih
        rcases List.mem_cons.mp h with rfl | hrest
        · rw [List.mem_cons, not_or]
          exact ⟨fun heq => hc heq.symm, ih List.mem_cons_self⟩
        · exact ih (List.mem_cons_of_mem _ hrest)

theorem mem_intercalate_of_mem {mark c : Char} {pieces : List (List Char)} {piece : List Char}
    (hpiece : piece ∈ pieces) (hc : c ∈ piece) : c ∈ [mark].intercalate pieces :=
  (infix_intercalate_of_mem hpiece).subset hc

/-- What follows the first `mark`, and what stands before it. -/
def cutFirst? (mark : Char) (text : List Char) : Option (List Char × List Char) :=
  match text.dropWhile (· != mark) with
  | [] => none
  | _ :: rest => some (text.takeWhile (· != mark), rest)

/-- What stands before the last `mark`, and what follows it. -/
def cutLast? (mark : Char) (text : List Char) : Option (List Char × List Char) :=
  (cutFirst? mark text.reverse).map fun (after, before) => (before.reverse, after.reverse)

/-- The text behind a fixed lead. -/
def behind? (lead text : List Char) : Option (List Char) :=
  if lead.isPrefixOf text then some (text.drop lead.length) else none

/-- The text between a first and a last character. -/
def between? (first last : Char) : List Char → Option (List Char)
  | c :: d :: rest =>
    if c == first && (d :: rest).getLast? == some last then some (d :: rest).dropLast else none
  | _ => none

theorem between?_append_singleton (first last : Char) (inner : List Char) :
    between? first last (first :: (inner ++ [last])) = some inner := by
  cases h : inner ++ [last] with
  | nil => simp at h
  | cons d rest =>
    simp only [between?, ← h, List.getLast?_concat, List.dropLast_concat]
    simp

theorem between?_of_head_ne {first last : Char} {text : List Char}
    (h : ∀ c ∈ text.head?, c ≠ first) : between? first last text = none := by
  cases text with
  | nil => rfl
  | cons c rest =>
    have hc : c ≠ first := h c rfl
    cases rest with
    | nil => rfl
    | cons d rest => simp [between?, hc]

/-- What stands between a first and a last character. -/
theorem between?_eq_some {first last : Char} {text inner : List Char}
    (h : between? first last text = some inner) : text = first :: (inner ++ [last]) := by
  unfold between? at h
  split at h
  next c d rest =>
    simp only [Option.ite_none_right_eq_some, Bool.and_eq_true, beq_iff_eq,
      Option.some.injEq] at h
    obtain ⟨⟨rfl, hlast⟩, rfl⟩ := h
    obtain ⟨front, hfront⟩ := List.getLast?_eq_some_iff.mp hlast
    rw [hfront, List.dropLast_concat]
  next => exact absurd h (by simp)

theorem between?_of_getLast?_ne {first last : Char} {text : List Char}
    (h : ∀ c ∈ text.getLast?, c ≠ last) : between? first last text = none := by
  cases hbetween : between? first last text with
  | none => rfl
  | some inner =>
    rw [between?_eq_some hbetween, ← List.cons_append, List.getLast?_concat] at h
    exact absurd rfl (h last rfl)

theorem length_between? {first last : Char} {text inner : List Char}
    (h : between? first last text = some inner) : inner.length + 2 = text.length := by
  rw [between?_eq_some h, List.length_cons, List.length_append]
  rfl

theorem cutFirst?_of_not_mem {mark : Char} {text : List Char} (h : mark ∉ text) :
    cutFirst? mark text = none := by
  have hall : ∀ c ∈ text, (c != mark) = true := by
    intro c hc
    rw [bne_iff_ne]
    rintro rfl
    exact h hc
  have hdrop : (text ++ []).dropWhile (· != mark) = [] := List.dropWhile_append_of_pos hall
  rw [List.append_nil] at hdrop
  rw [cutFirst?, hdrop]

theorem cutFirst?_append_cons {mark : Char} {before : List Char} (h : mark ∉ before)
    (rest : List Char) : cutFirst? mark (before ++ mark :: rest) = some (before, rest) := by
  have hall : ∀ c ∈ before, (c != mark) = true := by
    intro c hc
    rw [bne_iff_ne]
    rintro rfl
    exact h hc
  rw [cutFirst?, List.dropWhile_append_of_pos hall, List.takeWhile_append_of_pos hall]
  simp

theorem cutLast?_of_not_mem {mark : Char} {text : List Char} (h : mark ∉ text) :
    cutLast? mark text = none := by
  rw [cutLast?, cutFirst?_of_not_mem (by simpa using h), Option.map_none]

theorem cutLast?_append_cons {mark : Char} {rest : List Char} (h : mark ∉ rest)
    (before : List Char) : cutLast? mark (before ++ mark :: rest) = some (before, rest) := by
  have hreverse : (before ++ mark :: rest).reverse = rest.reverse ++ mark :: before.reverse := by
    simp
  rw [cutLast?, hreverse, cutFirst?_append_cons (by simpa using h), Option.map_some]
  simp

/-- The first mark stands between what a cut leaves. -/
theorem cutFirst?_eq_some {mark : Char} {text before rest : List Char}
    (h : cutFirst? mark text = some (before, rest)) :
    text = before ++ mark :: rest ∧ mark ∉ before := by
  by_cases hmem : mark ∈ text
  · obtain ⟨front, back, rfl, hfront⟩ := List.eq_append_cons_of_mem hmem
    rw [cutFirst?_append_cons hfront, Option.some_inj, Prod.mk.injEq] at h
    obtain ⟨rfl, rfl⟩ := h
    exact ⟨rfl, hfront⟩
  · rw [cutFirst?_of_not_mem hmem] at h
    exact absurd h (by simp)

theorem cutLast?_eq_some {mark : Char} {text before rest : List Char}
    (h : cutLast? mark text = some (before, rest)) :
    text = before ++ mark :: rest ∧ mark ∉ rest := by
  simp only [cutLast?, Option.map_eq_some_iff, Prod.mk.injEq, Prod.exists] at h
  obtain ⟨after, front, hcut, rfl, rfl⟩ := h
  obtain ⟨htext, hafter⟩ := cutFirst?_eq_some hcut
  have hreverse := congrArg List.reverse htext
  rw [List.reverse_reverse] at hreverse
  exact ⟨by simp [hreverse], by simpa using hafter⟩

theorem not_mem_of_cutFirst? {mark : Char} {text : List Char} (h : cutFirst? mark text = none) :
    mark ∉ text := by
  intro hmem
  obtain ⟨front, back, rfl, hfront⟩ := List.eq_append_cons_of_mem hmem
  rw [cutFirst?_append_cons hfront] at h
  exact absurd h (by simp)

theorem not_mem_of_cutLast? {mark : Char} {text : List Char} (h : cutLast? mark text = none) :
    mark ∉ text := by
  rw [cutLast?, Option.map_eq_none_iff] at h
  simpa using not_mem_of_cutFirst? h

theorem length_cutLast? {mark : Char} {text before rest : List Char}
    (h : cutLast? mark text = some (before, rest)) :
    before.length + rest.length + 1 = text.length := by
  rw [(cutLast?_eq_some h).1, List.length_append, List.length_cons]
  rfl

/-- A run of characters of one class ends where the next character is of another. -/
theorem takeWhile_run_append {p : Char → Bool} {run rest : List Char} (h : ∀ c ∈ run, p c = true)
    (hrest : ∀ c ∈ rest.head?, p c = false) : (run ++ rest).takeWhile p = run := by
  rw [List.takeWhile_append_of_pos h]
  cases rest with
  | nil => simp
  | cons c rest => simp [hrest c rfl]

theorem dropWhile_run_append {p : Char → Bool} {run rest : List Char} (h : ∀ c ∈ run, p c = true)
    (hrest : ∀ c ∈ rest.head?, p c = false) : (run ++ rest).dropWhile p = rest := by
  rw [List.dropWhile_append_of_pos h]
  cases rest with
  | nil => rfl
  | cons c rest => simp [hrest c rfl]

end ConfigLang.Text
