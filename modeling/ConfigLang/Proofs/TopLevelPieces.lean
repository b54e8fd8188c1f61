import ConfigLang.Proofs.ArrayLiterals

set_option autoImplicit false

/-! # The pieces of appended texts

A text is cut at the marks outside quotes, brackets and braces, and every piece is scanned afresh. So
a text behind another one only changes the last piece of that (`Scan.splitTopLevel_append`); where
the first text closes what it opens, the second is cut as it is alone
(`Scan.splitTopLevel_append_of_closed`). What lines a text breaks into does not matter to its scan
(`Scan.shifted_joinLines`). -/

namespace ConfigLang

open Text

namespace Scan

/-! ## Scans that go on alike -/

namespace Nesting

/-- Two states from which a text is scanned alike, but for `m` more brackets and `n` more braces. -/
structure Shifted (m n : ℤ) (s t : Nesting) : Prop where
  span_eq : t.quotes.span? = s.quotes.span?
  escaped_iff : s.quotes.span? ≠ none → (t.quotes.last? = some '\\' ↔ s.quotes.last? = some '\\')
  brackets_eq : t.brackets = s.brackets + m
  braces_eq : t.braces = s.braces + n

namespace Shifted

variable {m n : ℤ} {s t u : Nesting}

theorem refl (s : Nesting) : Shifted 0 0 s s :=
  ⟨rfl, fun _ => Iff.rfl, (Int.add_zero _).symm, (Int.add_zero _).symm⟩

theorem trans (hst : Shifted 0 0 s t) (htu : Shifted 0 0 t u) : Shifted 0 0 s u where
  span_eq := htu.span_eq.trans hst.span_eq
  escaped_iff h := (htu.escaped_iff (hst.span_eq ▸ h)).trans (hst.escaped_iff h)
  brackets_eq := by rw [htu.brackets_eq, hst.brackets_eq, Int.add_zero]
  braces_eq := by rw [htu.braces_eq, hst.braces_eq, Int.add_zero]

theorem outside_eq (h : Shifted m n s t) (c : Char) : t.quotes.outside c = s.quotes.outside c := by
  rw [Quotes.outside, Quotes.outside, h.span_eq]

theorem step (h : Shifted m n s t) (c : Char) : Shifted m n (s.step c) (t.step c) where
  span_eq := by
    simp only [Nesting.step, Quotes.step, h.span_eq]
    cases hspan : s.quotes.span? with
    | none => rfl
    | some q =>
      have hlast : (t.quotes.last? != some '\\') = (s.quotes.last? != some '\\') := by
        rw [Bool.eq_iff_iff, bne_iff_ne, bne_iff_ne, Ne, Ne, h.escaped_iff (by simp [hspan])]
      have hcloses : t.quotes.closes q c = s.quotes.closes q c := congrArg (c == q && ·) hlast
      simp only [hcloses]
  escaped_iff _ := Iff.rfl
  brackets_eq := by
    simp only [Nesting.step, h.outside_eq, h.brackets_eq]
    split
    · exact Int.add_right_comm _ _ _
    · rfl
  braces_eq := by
    simp only [Nesting.step, h.outside_eq, h.braces_eq]
    split
    · exact Int.add_right_comm _ _ _
    · rfl

theorem foldl (h : Shifted m n s t) (text : List Char) :
    Shifted m n (text.foldl Nesting.step s) (text.foldl Nesting.step t) := by
  induction text generalizing s t with
  | nil => exact h
  | cons c rest ih => exact ih (h.step c)

theorem cutWhen?_eq (h : Shifted 0 0 s t) (p : Char → Bool) (text : List Char) :
    cutWhen? Nesting.step (fun s c => s.atTop c && p c) t text
      = cutWhen? Nesting.step (fun s c => s.atTop c && p c) s text := by
  induction text generalizing s t with
  | nil => rfl
  | cons c rest ih =>
    have htop : t.atTop c = s.atTop c := by
      simp only [atTop, h.outside_eq, h.brackets_eq, h.braces_eq, Int.add_zero]
    rw [cutWhen?, cutWhen?, htop, ih (h.step c)]

end Shifted

/-- A state outside quotes, brackets and braces. -/
structure IsClosed (s : Nesting) : Prop where
  span_eq : s.quotes.span? = none
  brackets_eq : s.brackets = 0
  braces_eq : s.braces = 0

variable {s t : Nesting}

theorem isClosed_start : IsClosed {} :=
  ⟨rfl, rfl, rfl⟩

theorem IsClosed.shifted (hs : s.IsClosed) (ht : t.IsClosed) : Shifted 0 0 s t where
  span_eq := ht.span_eq.trans hs.span_eq.symm
  escaped_iff h := absurd hs.span_eq h
  brackets_eq := by rw [hs.brackets_eq, ht.brackets_eq, Int.add_zero]
  braces_eq := by rw [hs.braces_eq, ht.braces_eq, Int.add_zero]

theorem Shifted.isClosed_iff (h : Shifted 0 0 s t) : t.IsClosed ↔ s.IsClosed := by
  have hbrackets := h.brackets_eq
  have hbraces := h.braces_eq
  rw [Int.add_zero] at hbrackets hbraces
  constructor
  · rintro ⟨hspan, hb, hc⟩
    exact ⟨h.span_eq ▸ hspan, hbrackets ▸ hb, hbraces ▸ hc⟩
  · rintro ⟨hspan, hb, hc⟩
    exact ⟨h.span_eq.trans hspan, hbrackets.trans hb, hbraces.trans hc⟩

theorem isClosed_step_of_atTop {c : Char} (h : s.atTop c = true) : (s.step c).IsClosed := by
  simp only [atTop, Quotes.outside, Bool.and_eq_true, Bool.not_eq_true', Option.isNone_iff_eq_none,
    beq_iff_eq] at h
  obtain ⟨⟨⟨⟨⟨hspan, hquote⟩, hbracket⟩, hbrace⟩, hbrackets⟩, hbraces⟩ := h
  obtain ⟨hspan', hbrackets', hbraces'⟩ := step_of_not_quote hspan hquote
  exact ⟨hspan', by rw [hbrackets', hbrackets, hbracket, Int.add_zero],
    by rw [hbraces', hbraces, hbrace, Int.add_zero]⟩

end Nesting

/-- The state behind a text. -/
def nesting (text : List Char) : Nesting :=
  text.foldl Nesting.step {}

theorem nesting_append (text rest : List Char) :
    nesting (text ++ rest) = rest.foldl Nesting.step (nesting text) :=
  List.foldl_append

/-! ## Pieces -/

section

variable {mark : Char} {text rest last first : List Char} {front back : List (List Char)}

/-- The last piece of a text is cut nowhere, and behind it the scan is as behind the text. -/
theorem last_of_splitTopLevel (h : splitTopLevel mark text = front ++ [last]) :
    cutTopLevel? (· == mark) last = none ∧ ((nesting last).IsClosed ↔ (nesting text).IsClosed) := by
  fun_induction splitTopLevel mark text generalizing front with
  | case1 text hcut =>
    have hone : [] ++ [text] = front ++ [last] := h
    obtain ⟨-, hlast⟩ := List.append_inj' hone rfl
    obtain rfl := List.singleton_inj.mp hlast
    exact ⟨hcut, Iff.rfl⟩
  | case2 text piece rest hcut ih =>
    obtain ⟨c, rfl, hhit⟩ := exists_hit_of_cutWhen? hcut
    rw [Bool.and_eq_true] at hhit
    cases front with
    | nil => exact absurd (List.cons.inj h).2 (splitTopLevel_ne_nil mark rest)
    | cons head front =>
      obtain ⟨hnone, hclosed⟩ := ih (List.cons.inj h).2
      refine ⟨hnone, hclosed.trans ?_⟩
      -- behind the mark the scan starts anew
      rw [nesting_append, List.foldl_cons]
      exact ((Nesting.isClosed_step_of_atTop hhit.1).shifted Nesting.isClosed_start
        |>.foldl rest).isClosed_iff

/-- A text behind another one changes the last piece of that only. -/
theorem splitTopLevel_append (h : splitTopLevel mark text = front ++ [last]) (rest : List Char) :
    splitTopLevel mark (text ++ rest) = front ++ splitTopLevel mark (last ++ rest) := by
  fun_induction splitTopLevel mark text generalizing front with
  | case1 text hcut =>
    have hone : [] ++ [text] = front ++ [last] := h
    obtain ⟨rfl, hlast⟩ := List.append_inj' hone rfl
    obtain rfl := List.singleton_inj.mp hlast
    rfl
  | case2 text piece later hcut ih =>
    have hmore : cutTopLevel? (· == mark) (text ++ rest) = some (piece, later ++ rest) :=
      cutWhen?_append_of_some hcut rest
    cases front with
    | nil => exact absurd (List.cons.inj h).2 (splitTopLevel_ne_nil mark later)
    | cons head front =>
      obtain ⟨rfl, hlater⟩ := List.cons.inj h
      rw [splitTopLevel_of_some hmore, ih hlater, List.cons_append]

/-- Behind a text that closes what it opens another one is cut as it is alone. -/
theorem splitTopLevel_append_of_closed (hclosed : (nesting text).IsClosed)
    (htext : splitTopLevel mark text = front ++ [last])
    (hrest : splitTopLevel mark rest = first :: back) :
    splitTopLevel mark (text ++ rest) = front ++ (last ++ first) :: back := by
  obtain ⟨hnone, hlast⟩ := last_of_splitTopLevel htext
  have hshifted := Nesting.isClosed_start.shifted (hlast.mpr hclosed)
  have hcut : cutTopLevel? (· == mark) (last ++ rest)
      = (cutTopLevel? (· == mark) rest).map (Prod.map (last ++ ·) id) := by
    rw [cutTopLevel?, cutWhen?_append hnone, ← nesting, hshifted.cutWhen?_eq]
    rfl
  rw [splitTopLevel_append htext]
  refine congrArg (front ++ ·) ?_
  cases hfound : cutTopLevel? (· == mark) rest with
  | none =>
    rw [hfound, Option.map_none] at hcut
    rw [splitTopLevel_of_none hfound] at hrest
    obtain ⟨rfl, rfl⟩ := List.cons.inj hrest
    exact splitTopLevel_of_none hcut
  | some found =>
    obtain ⟨before, after⟩ := found
    rw [hfound, Option.map_some] at hcut
    rw [splitTopLevel_of_some hfound] at hrest
    obtain ⟨rfl, rfl⟩ := List.cons.inj hrest
    exact splitTopLevel_of_some hcut

/-- A text without the mark belongs to the last piece. -/
theorem splitTopLevel_append_of_not_mem (hmark : mark ∉ rest)
    (h : splitTopLevel mark text = front ++ [last]) :
    splitTopLevel mark (text ++ rest) = front ++ [last ++ rest] := by
  have hne : ∀ c ∈ rest, (c == mark) = false := fun c hc =>
    beq_eq_false_iff_ne.mpr fun heq => hmark (heq ▸ hc)
  have hnone : cutTopLevel? (· == mark) (last ++ rest) = none := by
    rw [cutTopLevel?, cutWhen?_append (last_of_splitTopLevel h).1,
      cutWhen?_eq_none_of_forall hne, Option.map_none]
  rw [splitTopLevel_append h, splitTopLevel_of_none hnone]

/-! ## Blanks -/

variable {blanks : List Char}

/-- Blanks before a text belong to its first piece. -/
theorem map_trim_splitTopLevel_append_left (h : ∀ c ∈ blanks, isBlank c = true)
    (text : List Char) :
    (splitTopLevel ',' (blanks ++ text)).map trim = (splitTopLevel ',' text).map trim := by
  have hpass := closed_of_blank h {} rfl (Int.le_refl 0)
  have hclosed : (nesting blanks).IsClosed :=
    ⟨hpass.span_eq, hpass.brackets_eq, hpass.braces_eq⟩
  have hblanks : splitTopLevel ',' blanks = [] ++ [blanks] :=
    splitTopLevel_of_closed (closed_of_blank h)
  obtain ⟨first, back, htext⟩ := List.exists_cons_of_ne_nil (splitTopLevel_ne_nil ',' text)
  rw [splitTopLevel_append_of_closed hclosed hblanks htext, htext, List.nil_append, List.map_cons,
    List.map_cons, trim_append_left h]

/-- Blanks behind a text belong to its last piece. -/
theorem map_trim_splitTopLevel_append_right (h : ∀ c ∈ blanks, isBlank c = true)
    (text : List Char) :
    (splitTopLevel ',' (text ++ blanks)).map trim = (splitTopLevel ',' text).map trim := by
  have hcomma : ',' ∉ blanks := fun hmem => absurd (h ',' hmem) (by decide)
  have htext := (List.dropLast_concat_getLast (splitTopLevel_ne_nil ',' text)).symm
  rw [splitTopLevel_append_of_not_mem hcomma htext]
  conv_rhs => rw [htext]
  simp [trim_append_right h]

end

theorem map_trim_splitTopLevel_trim (text : List Char) :
    (splitTopLevel ',' (trim text)).map trim = (splitTopLevel ',' text).map trim := by
  rcases blank_or_solid text with hblank | ⟨front, solid, back, rfl, hsolid, hfront, hback⟩
  · have hpieces := map_trim_splitTopLevel_append_left hblank []
    rw [List.append_nil] at hpieces
    rw [trim_of_blank hblank, hpieces]
  · rw [hsolid.trim_margins hfront hback, map_trim_splitTopLevel_append_right hback,
      map_trim_splitTopLevel_append_left hfront]

/-! ## Line breaks -/

namespace Nesting

variable {s : Nesting} {run : List Char}

/-- Whether an open span was opened by a quote character. -/
def IsQuoted (s : Nesting) : Prop :=
  ∀ q ∈ s.quotes.span?, isQuote q = true

theorem IsQuoted.step (h : s.IsQuoted) (c : Char) : (s.step c).IsQuoted :=
  Quotes.isQuote_of_span_step h c

theorem IsQuoted.foldl (h : s.IsQuoted) (text : List Char) :
    (text.foldl Nesting.step s).IsQuoted := by
  induction text generalizing s with
  | nil => exact h
  | cons c rest ih => exact ih (h.step c)

theorem bracketChange_of_blank {c : Char} (h : isBlank c = true) : bracketChange c = 0 := by
  unfold bracketChange
  split <;> first | exact absurd h (by decide) | rfl

theorem braceChange_of_blank {c : Char} (h : isBlank c = true) : braceChange c = 0 := by
  unfold braceChange
  split <;> first | exact absurd h (by decide) | rfl

/-- A blank changes only what was read last. -/
theorem IsQuoted.step_blank (h : s.IsQuoted) {c : Char} (hc : isBlank c = true) :
    s.step c = ⟨⟨s.quotes.span?, some c⟩, s.brackets, s.braces⟩ := by
  have hquote : isQuote c = false :=
    Expr.Token.isQuote_of_isDelimiter (by simp [Expr.Token.isDelimiter, hc])
  have hspan : (s.quotes.step c).span? = s.quotes.span? := by
    cases hs : s.quotes.span? with
    | none => exact Quotes.span_step_of_not_quote hs hquote
    | some q =>
      refine Quotes.span_step_of_ne hs ?_
      rintro rfl
      rw [h c hs] at hquote
      exact absurd hquote (by decide)
  have hquotes : s.quotes.step c = ⟨s.quotes.span?, some c⟩ :=
    congrArg (fun span? => Quotes.mk span? (some c)) hspan
  rw [Nesting.step, hquotes, bracketChange_of_blank hc, braceChange_of_blank hc]
  simp

/-- All that the scan keeps of a run of blanks is the last one. -/
theorem IsQuoted.foldl_blanks (h : s.IsQuoted) (hrun : ∀ c ∈ run, isBlank c = true) {c : Char}
    (hc : isBlank c = true) :
    (run ++ [c]).foldl Nesting.step s = ⟨⟨s.quotes.span?, some c⟩, s.brackets, s.braces⟩ := by
  induction run generalizing s with
  | nil => exact h.step_blank hc
  | cons d run ih =>
    rw [List.forall_mem_cons] at hrun
    rw [List.cons_append, List.foldl_cons, ih (h.step d) hrun.2, h.step_blank hrun.1]

theorem IsQuoted.shifted_settleRun (h : s.IsQuoted) (hrun : ∀ c ∈ run, isBlank c = true) :
    Shifted 0 0 (run.foldl Nesting.step s) ((settleRun run).foldl Nesting.step s) := by
  rcases List.eq_nil_or_concat' run with rfl | ⟨front, c, rfl⟩
  · exact .refl s
  · have hlast : isBlank c = true := hrun c (by simp)
    have hne : ∀ {c : Char}, isBlank c = true → some c ≠ some '\\' := by
      rintro c hc heq
      exact absurd hc (by rw [Option.some.inj heq]; decide)
    unfold settleRun
    split
    · rw [h.foldl_blanks (fun d hd => hrun d (List.mem_append_left _ hd)) hlast,
        List.foldl_cons, List.foldl_nil, h.step_blank (c := ' ') rfl]
      refine ⟨rfl, fun _ => iff_of_false (hne rfl) (hne hlast), ?_, ?_⟩
      · exact (Int.add_zero _).symm
      · exact (Int.add_zero _).symm
    · exact .refl _

theorem IsQuoted.shifted_joinLinesFrom (h : s.IsQuoted) (hrun : ∀ c ∈ run, isBlank c = true)
    (text : List Char) :
    Shifted 0 0 ((run ++ text).foldl Nesting.step s)
      ((joinLinesFrom run text).foldl Nesting.step s) := by
  induction text generalizing s run with
  | nil =>
    rw [List.append_nil]
    exact h.shifted_settleRun hrun
  | cons c rest ih =>
    rw [joinLinesFrom]
    split
    next hc =>
      have hlonger : ∀ d ∈ run ++ [c], isBlank d = true :=
        List.forall_mem_append.mpr ⟨hrun, List.forall_mem_singleton.mpr hc⟩
      have hmore := ih h hlonger
      rwa [List.append_assoc] at hmore
    next =>
      rw [List.foldl_append, List.foldl_append, List.foldl_cons, List.foldl_cons]
      have hsettled := ((h.shifted_settleRun hrun).step c).foldl rest
      exact hsettled.trans (ih ((h.foldl (settleRun run)).step c) (List.forall_mem_nil _))

end Nesting

/-- Where the lines of a text break does not matter to the state behind it. -/
theorem shifted_joinLines (text : List Char) :
    Nesting.Shifted 0 0 (nesting text) (nesting (joinLines text)) := by
  have hstart : Nesting.IsQuoted {} := fun q hq => absurd hq (by simp)
  exact hstart.shifted_joinLinesFrom (List.forall_mem_nil _) text

end Scan

end ConfigLang
