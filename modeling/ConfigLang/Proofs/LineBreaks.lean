import ConfigLang.Proofs.BetweenQuotes
import ConfigLang.Proofs.IncludeChains
import ConfigLang.Proofs.JoinedLines

set_option autoImplicit false

/-! # Texts that may be broken in lines

Where a text stands on several lines, comments are removed from each line by itself, and each is
asked whether it includes a file. A tidy text goes through this as it is: its lines break outside
quotes, and what would begin a comment or an include stands in quotes only (`Tidy.of_mem_lines`). -/

namespace ConfigLang

open Text

namespace Scan

/-- Outside quotes a scan goes on alike whatever was read before, if it accepts alike. -/
theorem cutWhen?_of_span_none {hit : Quotes → Char → Bool} {s t : Quotes} (hs : s.span? = none)
    (ht : t.span? = none) (hhit : ∀ c, hit s c = hit t c) (text : List Char) :
    cutWhen? Quotes.step hit s text = cutWhen? Quotes.step hit t text := by
  cases text with
  | nil => rfl
  | cons c rest => rw [cutWhen?, cutWhen?, hhit, Quotes.step_eq_of_span_none hs ht]

/-! ## Tidy texts -/

/-- Outside quotes and not behind a slash. -/
structure Quotes.IsClear (s : Quotes) : Prop where
  span_eq : s.span? = none
  last_ne : s.last? ≠ some '/'

theorem Quotes.IsClear.last_beq {s : Quotes} (h : s.IsClear) : (s.last? == some '/') = false :=
  beq_eq_false_iff_ne.mpr h.last_ne

/-- Whether a character makes more of a text than part of a value that lines may break: a line break
    inside quotes, what begins a comment, and the letter that the word for includes begins with. -/
def disturbs (s : Quotes) (c : Char) : Bool :=
  (c == '\n' && s.span?.isSome) || (s.outside c && (c == '/' || c == 'i'))
    || (c == '*' && s.last? == some '/')

/-- A text without such a character that is clear at its end again. -/
def Tidy (text : List Char) : Prop :=
  ∀ s : Quotes, s.IsClear → cutWhen? Quotes.step disturbs s text = none ∧ (s.scan text).IsClear

theorem tidy_nil : Tidy [] :=
  fun _ hs => ⟨rfl, hs⟩

theorem Tidy.append {text rest : List Char} (h : Tidy text) (hrest : Tidy rest) :
    Tidy (text ++ rest) := by
  intro s hs
  obtain ⟨hcut, hclear⟩ := h s hs
  obtain ⟨hcutRest, hclearRest⟩ := hrest _ hclear
  refine ⟨by rw [cutWhen?_scan hcut, hcutRest, Option.map_none], ?_⟩
  rw [Quotes.scan_append]
  exact hclearRest

/-- Quotes, slashes and the first letter of the word for includes aside, characters may stand
    anywhere. -/
theorem tidy_of_forall {text : List Char} (h : ∀ c ∈ text, isQuote c = false ∧ c ≠ '/' ∧ c ≠ 'i') :
    Tidy text := by
  induction text with
  | nil => exact tidy_nil
  | cons c rest ih =>
    rw [List.forall_mem_cons] at h
    obtain ⟨⟨hquote, hslash, hletter⟩, hrest⟩ := h
    have hhead : Tidy [c] := by
      intro s hs
      refine ⟨?_, Quotes.span_step_of_not_quote hs.span_eq hquote, ?_⟩
      · simp [cutWhen?, disturbs, hs.span_eq, hs.last_beq, hslash, hletter]
      · rw [Quotes.scan_cons, Quotes.scan_nil, Quotes.last_step, ne_eq, Option.some_inj]
        exact hslash
    exact hhead.append (ih hrest)

theorem tidy_of_blank {text : List Char} (h : ∀ c ∈ text, isBlank c = true) : Tidy text := by
  refine tidy_of_forall fun c hc => ?_
  have hdouble := ne_of_class (d := '"') (h c hc) rfl
  have hsingle := ne_of_class (d := '\'') (h c hc) rfl
  exact ⟨by simp [isQuote, hdouble, hsingle], ne_of_class (h c hc) rfl, ne_of_class (h c hc) rfl⟩

theorem cutWhen?_disturbs_of_hides {s : Quotes} {text : List Char} (h : s.hides text = true)
    (hline : '\n' ∉ text) (hopens : ¬ ['/', '*'] <:+: text)
    (hseam : s.last? = some '/' → text.head? ≠ some '*') :
    cutWhen? Quotes.step disturbs s text = none := by
  induction text generalizing s with
  | nil => rfl
  | cons c rest ih =>
    rw [Quotes.hides, Bool.and_eq_true, Bool.not_eq_true'] at h
    rw [List.mem_cons, not_or] at hline
    have hnext : (s.step c).last? = some '/' → rest.head? ≠ some '*' := by
      intro hslash hstar
      obtain ⟨tail, rfl⟩ := List.head?_eq_some_iff.mp hstar
      rw [Quotes.last_step, Option.some_inj] at hslash
      exact hopens ⟨[], tail, by rw [hslash]; rfl⟩
    have hrest := ih h.2 hline.2 (fun hin => hopens (hin.trans (List.suffix_cons c rest).isInfix))
      hnext
    have hbreak : (c == '\n') = false := beq_eq_false_iff_ne.mpr fun heq => hline.1 heq.symm
    have hstar : (c == '*' && s.last? == some '/') = false := by
      rw [← Bool.not_eq_true, Bool.and_eq_true, beq_iff_eq, beq_iff_eq]
      rintro ⟨rfl, hslash⟩
      exact hseam hslash rfl
    rw [cutWhen?, disturbs, hbreak, h.1, hstar, hrest]
    rfl

/-- A string may stand anywhere if it neither ends in a backslash nor opens a block comment. -/
theorem tidy_quote {text : List Char} (hlast : text.getLast? ≠ some '\\')
    (hopens : ¬ ['/', '*'] <:+: quote text) : Tidy (quote text) := by
  intro s hs
  refine ⟨cutWhen?_disturbs_of_hides (Quotes.hides_quote hs.span_eq text)
    (newline_not_mem_quote text) hopens fun _ => by simp [quote],
    Quotes.span_scan_quote hs.span_eq hlast, ?_⟩
  rw [Quotes.last_scan, quote, List.getLast?_concat]
  simp

/-! ## Lines of tidy texts -/

variable {text line : List Char}

theorem isClear_start : ({} : Quotes).IsClear :=
  ⟨rfl, by simp⟩

theorem Tidy.opens_no_block (h : Tidy text) : ¬ ['/', '*'] <:+: text := by
  rintro ⟨front, back, rfl⟩
  have hsplit : front ++ ['/', '*'] ++ back = (front ++ ['/']) ++ '*' :: back := by simp
  obtain ⟨hcut, -⟩ := h {} isClear_start
  rw [hsplit] at hcut
  have hstar := hit_of_cutWhen?_eq_none hcut
  rw [List.foldl_append, List.foldl_cons, List.foldl_nil, disturbs, Quotes.last_step] at hstar
  simp at hstar

/-- A line ends outside quotes, and the next one begins as if nothing stood before it. -/
theorem Tidy.of_append_newline {rest : List Char} (h : Tidy (line ++ '\n' :: rest)) :
    cutWhen? Quotes.step disturbs {} line = none ∧ Tidy rest := by
  obtain ⟨hcut, hclear⟩ := h {} isClear_start
  have hbreak := hit_of_cutWhen?_eq_none hcut
  obtain ⟨hline, hafter⟩ := cutWhen?_append_eq_none hcut
  refine ⟨hline, fun s hs => ?_⟩
  obtain ⟨t, ht⟩ : ∃ t, t = (line.foldl Quotes.step {}).step '\n' := ⟨_, rfl⟩
  have hspan : (line.foldl Quotes.step {}).span? = none := by
    simpa [disturbs, Quotes.outside, isQuote] using hbreak
  have hclearT : t.IsClear :=
    ⟨by rw [ht]; exact Quotes.span_step_of_not_quote hspan rfl,
      by rw [ht, Quotes.last_step]; simp⟩
  have hrest : cutWhen? Quotes.step disturbs t rest = none := by
    rw [← List.singleton_append] at hafter
    rw [ht]
    exact (cutWhen?_append_eq_none hafter).2
  have hsame : ∀ c, disturbs s c = disturbs t c := by
    intro c
    simp [disturbs, Quotes.outside, hs.span_eq, hs.last_beq, hclearT.span_eq, hclearT.last_beq]
  refine ⟨by rw [cutWhen?_of_span_none hs.span_eq hclearT.span_eq hsame, hrest], ?_⟩
  cases rest with
  | nil => exact hs
  | cons c rest =>
    rw [Quotes.scan_cons, Quotes.step_eq_of_span_none hs.span_eq hclearT.span_eq, ht]
    rw [Quotes.scan_append] at hclear
    exact hclear

/-- No line of such a text is disturbed, wherever else it stood. -/
theorem Tidy.of_mem_lines {lines : List (List Char)} (h : Tidy (['\n'].intercalate lines)) :
    ∀ line ∈ lines, cutWhen? Quotes.step disturbs {} line = none := by
  induction lines with
  | nil => exact fun _ hmem => absurd hmem List.not_mem_nil
  | cons line rest ih =>
    cases rest with
    | nil =>
      rw [List.intercalate_singleton] at h
      exact List.forall_mem_singleton.mpr (h {} isClear_start).1
    | cons next others =>
      rw [List.intercalate_cons_cons, List.append_assoc, List.singleton_append] at h
      obtain ⟨hline, hrest⟩ := h.of_append_newline
      exact List.forall_mem_cons.mpr ⟨hline, ih hrest⟩

/-- No comment begins in a line that is not disturbed. -/
theorem cutWhen?_slash_of_disturbs (h : cutWhen? Quotes.step disturbs {} line = none) {s : Quotes}
    (hs : s.span? = none) :
    cutWhen? Quotes.step (fun s c => s.outside c && c == '/') s line = none := by
  have hsame : ∀ c, (s.outside c && c == '/') = (({} : Quotes).outside c && c == '/') := by
    intro c
    simp [Quotes.outside, hs]
  rw [cutWhen?_of_span_none hs rfl hsame]
  refine cutWhen?_eq_none_of_imp (fun c _ s hc => ?_) h
  rw [Bool.and_eq_true, beq_iff_eq] at hc
  obtain ⟨houtside, rfl⟩ := hc
  simp [disturbs, houtside]

end Scan

namespace Document

/-- No line that is not disturbed includes a file. -/
theorem isInclude_of_disturbs {line : List Char}
    (h : Scan.cutWhen? Scan.Quotes.step Scan.disturbs {} line = none) : isInclude line = false := by
  rw [isInclude, ← Bool.not_eq_true, List.isPrefixOf_iff_prefix]
  rintro ⟨rest, hrest⟩
  have hword : includeWord = 'i' :: "nclude ".toList := rfl
  rw [hword, List.cons_append] at hrest
  rcases blank_or_solid line with hblank | ⟨front, solid, back, rfl, hsolid, hfront, hback⟩
  · rw [trim_of_blank hblank] at hrest
    exact absurd hrest (List.cons_ne_nil _ _)
  · rw [hsolid.trim_margins hfront hback] at hrest
    rw [← hrest, List.append_assoc, List.cons_append] at h
    have hletter := Scan.hit_of_cutWhen?_eq_none h
    have hspan := ((Scan.tidy_of_blank hfront) {} Scan.isClear_start).2.span_eq
    have houtside := Scan.Quotes.outside_of_not_quote (c := 'i') hspan rfl
    rw [Scan.Quotes.scan] at houtside
    simp [Scan.disturbs, houtside] at hletter

end Document

end ConfigLang
