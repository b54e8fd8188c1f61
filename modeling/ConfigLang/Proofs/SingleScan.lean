import ConfigLang.Proofs.TopLevelPieces

set_option autoImplicit false

/-! # Splitting in a single scan

A text is split by scans that each begin afresh behind the mark that the last one has found. Where a
mark is found everything is closed, so these scans together see what one scan of the whole text sees.
Main statement: a text is split exactly at the marks that one scan meets outside quotes, brackets and
braces (`Scan.splitTopLevel_scanned`). -/

namespace ConfigLang.Scan

/-! ## Marks that one scan meets -/

/-- The characters of a text, each with what the scan of the whole text knows before it. -/
def scanned (s : Nesting) : List Char → List (Nesting × Char)
  | [] => []
  | c :: rest => (s, c) :: scanned (s.step c) rest

theorem map_snd_scanned (s : Nesting) (text : List Char) : (scanned s text).map Prod.snd = text := by
  induction text generalizing s with
  | nil => rfl
  | cons c rest ih => rw [scanned, List.map_cons, ih]

theorem scanned_append (s : Nesting) (text rest : List Char) :
    scanned s (text ++ rest) = scanned s text ++ scanned (text.foldl Nesting.step s) rest := by
  induction text generalizing s with
  | nil => rfl
  | cons c text ih => rw [List.cons_append, scanned, ih, scanned, List.cons_append, List.foldl_cons]

instance (s : Nesting) : Decidable s.IsClosed :=
  decidable_of_iff (s.quotes.span? = none ∧ s.brackets = 0 ∧ s.braces = 0)
    ⟨fun ⟨hspan, hbrackets, hbraces⟩ => ⟨hspan, hbrackets, hbraces⟩,
      fun h => ⟨h.span_eq, h.brackets_eq, h.braces_eq⟩⟩

/-- Whether a scan meets `mark` outside quotes, brackets and braces: on both sides of it everything
    is closed. So a mark that opens or closes something itself is never met. -/
def meets (mark : Char) (read : Nesting × Char) : Bool :=
  read.2 == mark && decide (read.1.IsClosed ∧ (read.1.step read.2).IsClosed)

theorem Nesting.atTop_iff {s : Nesting} {c : Char} :
    s.atTop c = true ↔ s.IsClosed ∧ (s.step c).IsClosed := by
  constructor
  · intro h
    refine ⟨?_, isClosed_step_of_atTop h⟩
    simp only [atTop, Quotes.outside, Bool.and_eq_true, Option.isNone_iff_eq_none,
      beq_iff_eq] at h
    obtain ⟨⟨⟨⟨⟨hspan, -⟩, -⟩, -⟩, hbrackets⟩, hbraces⟩ := h
    exact ⟨hspan, hbrackets, hbraces⟩
  · rintro ⟨hs, hstep⟩
    have hquote : Text.isQuote c = false := by
      by_contra hquote
      have hopened := Quotes.span_step_of_opening hs.span_eq (Bool.eq_true_of_not_eq_false hquote)
      exact absurd (hopened.symm.trans hstep.span_eq) (by simp)
    obtain ⟨-, hbrackets, hbraces⟩ := step_of_not_quote hs.span_eq hquote
    rw [hstep.brackets_eq, hs.brackets_eq, Int.zero_add] at hbrackets
    rw [hstep.braces_eq, hs.braces_eq, Int.zero_add] at hbraces
    simp [atTop, Quotes.outside_of_not_quote hs.span_eq hquote, ← hbrackets, ← hbraces,
      hs.brackets_eq, hs.braces_eq]

theorem meets_eq (mark : Char) (s : Nesting) (c : Char) :
    meets mark (s, c) = (s.atTop c && c == mark) := by
  rw [Bool.eq_iff_iff, meets, Bool.and_eq_true, Bool.and_eq_true, decide_eq_true_eq,
    Nesting.atTop_iff, and_comm]

/-! ## Cuts -/

section

variable {mark : Char} {s : Nesting} {text before after : List Char}

/-- Where a scan cuts nothing off, it meets no mark. -/
theorem not_meets_of_cutWhen?_eq_none
    (h : cutWhen? Nesting.step (fun s c => s.atTop c && c == mark) s text = none) :
    ∀ read ∈ scanned s text, meets mark read = false := by
  induction text generalizing s with
  | nil => exact List.forall_mem_nil _
  | cons c rest ih =>
    have hc := @hit_of_cutWhen?_eq_none _ _ _ s [] rest c h
    have hrest := (@cutWhen?_append_eq_none _ _ _ s [c] rest h).2
    rw [scanned, List.forall_mem_cons, meets_eq]
    exact ⟨hc, ih hrest⟩

/-- A scan from any closed state splits a text as the scans that begin afresh do. -/
theorem splitOnP_scanned (hs : s.IsClosed) (text : List Char) :
    ((scanned s text).splitOnP (meets mark)).map (List.map Prod.snd) = splitTopLevel mark text := by
  fun_induction splitTopLevel mark text generalizing s with
  | case1 text hcut =>
    have hnone := not_meets_of_cutWhen?_eq_none
      (((Nesting.isClosed_start.shifted hs).cutWhen?_eq (· == mark) text).trans hcut)
    rw [List.splitOnP_eq_singleton hnone, List.map_singleton, map_snd_scanned]
  | case2 text piece rest hcut ih =>
    have hsame := ((Nesting.isClosed_start.shifted hs).cutWhen?_eq (· == mark) text).trans hcut
    obtain ⟨c, rfl, hhit⟩ := exists_hit_of_cutWhen? hsame
    have hfront := not_meets_of_cutWhen?_eq_none (cutWhen?_before_eq_none hsame)
    have hmeets : meets mark (piece.foldl Nesting.step s, c) = true := (meets_eq _ _ _).trans hhit
    rw [Bool.and_eq_true] at hhit
    rw [scanned_append, scanned,
      List.splitOnP_append_cons_of_forall_mem hfront _ hmeets, List.map_cons, map_snd_scanned,
      ih (Nesting.isClosed_step_of_atTop hhit.1)]

end

/-! ## Counts -/

theorem Nesting.natAbs_step_le (s : Nesting) (c : Char) :
    (s.step c).brackets.natAbs ≤ s.brackets.natAbs + 1
      ∧ (s.step c).braces.natAbs ≤ s.braces.natAbs + 1 := by
  have hbracket : (bracketChange c).natAbs ≤ 1 := by unfold bracketChange; split <;> decide
  have hbrace : (braceChange c).natAbs ≤ 1 := by unfold braceChange; split <;> decide
  simp only [step]
  split <;> omega

/-- A scan counts no more than it reads. -/
theorem natAbs_nesting_le (text : List Char) :
    (nesting text).brackets.natAbs ≤ text.length ∧ (nesting text).braces.natAbs ≤ text.length := by
  induction text using List.reverseRecOn with
  | nil => exact ⟨Nat.le_refl 0, Nat.le_refl 0⟩
  | append_singleton front c ih =>
    have hstep := (nesting front).natAbs_step_le c
    rw [nesting_append, List.foldl_cons, List.foldl_nil, List.length_append, List.length_singleton]
    omega

/-! ## Splitting -/

/-- A text is split exactly at the marks that one scan of it meets outside quotes, brackets and
    braces. The pieces, joined with the mark, are the text, and none of them is cut again. A text of
    less than `2 ^ 31` characters takes no scan of a part of it beyond a count of 32 bits. -/
theorem splitTopLevel_scanned (mark : Char) {text : List Char} (hlength : text.length < 2 ^ 31) :
    splitTopLevel mark text = ((scanned {} text).splitOnP (meets mark)).map (List.map Prod.snd)
      ∧ [mark].intercalate (splitTopLevel mark text) = text
      ∧ (∀ piece ∈ splitTopLevel mark text, cutTopLevel? (· == mark) piece = none)
      ∧ ∀ part, part <:+: text →
        (nesting part).brackets.natAbs < 2 ^ 31 ∧ (nesting part).braces.natAbs < 2 ^ 31 := by
  refine ⟨(splitOnP_scanned Nesting.isClosed_start text).symm, intercalate_splitTopLevel mark text,
    fun piece hpiece => cutTopLevel?_of_mem_splitTopLevel hpiece, fun part hpart => ?_⟩
  have hcounts := natAbs_nesting_le part
  have hshorter := hpart.length_le
  omega

-- a bracket is counted and never met, and a backslash outside quotes is a mark like any other
example : splitTopLevel ']' "a]b".toList = ["a]b".toList] := by cbv
example : splitTopLevel '\\' "a\\'b\\c'\\".toList = ["a".toList, "'b\\c'".toList, []] := by cbv

/-- A text that opens less than it closes, with a quote that is never closed. -/
def unbalancedText : List Char :=
  "a,'b,c',[d,e],f\x7d,g,\"h,".toList

/-- Behind the closing brace, which closes nothing, there is no further mark. -/
theorem splitTopLevel_scanned_unbalanced :
    unbalancedText.length < 2 ^ 31
      ∧ splitTopLevel ',' unbalancedText
        = ["a".toList, "'b,c'".toList, "[d,e]".toList, "f\x7d,g,\"h,".toList]
      ∧ cutTopLevel? (· == ',') "f\x7d,g,\"h,".toList = none
      ∧ (nesting "f\x7d".toList).braces.natAbs < 2 ^ 31 := by
  have hlength : unbalancedText.length < 2 ^ 31 := by decide
  obtain ⟨hscanned, -, hpieces, hcounts⟩ := splitTopLevel_scanned ',' hlength
  have hsplit : splitTopLevel ',' unbalancedText
      = ["a".toList, "'b,c'".toList, "[d,e]".toList, "f\x7d,g,\"h,".toList] :=
    hscanned.trans rfl
  have hpart : "f\x7d".toList <:+: unbalancedText :=
    ⟨"a,'b,c',[d,e],".toList, ",g,\"h,".toList, rfl⟩
  exact ⟨hlength, hsplit, hpieces _ (by simp [hsplit]), (hcounts _ hpart).2⟩

end ConfigLang.Scan
