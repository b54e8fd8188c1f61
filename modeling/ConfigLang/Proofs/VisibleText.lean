import ConfigLang.Proofs.Chain
import ConfigLang.Proofs.FloatReading
import ConfigLang.Proofs.SharedText

set_option autoImplicit false

/-! # What an expression shows outside quotes

Operands that are not quoted consist of characters outside quotes, so an expression depends on the
environment only by the references that it shows there (`Visible`). Main statement: an expression
goes on showing shared references only when a group outside quotes is replaced by a text that keeps
its strings inside quotes (`Visible.replaced`). -/

namespace ConfigLang

open Text
open Environment (opening)

namespace Scan.Quotes

/-! ## Masks -/

/-- A text with a double quote in place of every character that does not stand outside quotes. -/
def mask (s : Quotes) : List Char → List Char
  | [] => []
  | c :: rest => (if s.outside c then c else '"') :: (s.step c).mask rest

theorem mask_append (s : Quotes) (text rest : List Char) :
    s.mask (text ++ rest) = s.mask text ++ (s.scan text).mask rest := by
  induction text generalizing s with
  | nil => rfl
  | cons c text ih => rw [List.cons_append, mask, mask, ih, scan_cons, List.cons_append]

/-- Outside quotes a mask does not depend on the characters before. -/
theorem mask_of_span_none {s t : Quotes} (hs : s.span? = none) (ht : t.span? = none)
    (text : List Char) : s.mask text = t.mask text := by
  cases text with
  | nil => rfl
  | cons c rest =>
    have houtside : s.outside c = t.outside c := by simp [outside, hs, ht]
    rw [mask, mask, houtside, step_eq_of_span_none hs ht]

theorem mask_eq_append {s : Quotes} {text front back : List Char}
    (h : s.mask text = front ++ back) :
    ∃ front' back', text = front' ++ back' ∧ s.mask front' = front
      ∧ (s.scan front').mask back' = back := by
  induction front generalizing s text with
  | nil => exact ⟨[], text, rfl, rfl, h⟩
  | cons d front ih =>
    cases text with
    | nil => exact absurd h (by simp [mask])
    | cons c rest =>
      rw [mask, List.cons_append, List.cons.injEq] at h
      obtain ⟨front', back', rfl, hfront, hback⟩ := ih h.2
      exact ⟨c :: front', back', rfl, by rw [mask, h.1, hfront], hback⟩

/-- A text of which the mask shows all is its own mask. -/
theorem mask_eq_self {s : Quotes} {text : List Char} (h : '"' ∉ s.mask text) :
    s.mask text = text := by
  induction text generalizing s with
  | nil => rfl
  | cons c rest ih =>
    rw [mask, List.mem_cons, not_or] at h
    have hc : s.outside c = true := by
      by_cases houtside : s.outside c = true
      · exact houtside
      · exact absurd (if_neg houtside).symm h.1
    rw [mask, if_pos hc, ih h.2]

theorem infix_of_infix_mask {s : Quotes} {text run : List Char} (h : run <:+: s.mask text)
    (hrun : '"' ∉ run) : run <:+: text := by
  obtain ⟨front, back, heq⟩ := h
  rw [List.append_assoc] at heq
  obtain ⟨front', rest, rfl, -, hrest⟩ := mask_eq_append heq.symm
  obtain ⟨run', back', rfl, hrun', -⟩ := mask_eq_append hrest
  rw [← hrun'] at hrun
  exact ⟨front', back', by rw [← hrun', mask_eq_self hrun, List.append_assoc]⟩

theorem mask_cons_of_isQuote {s : Quotes} {c : Char} (hc : isQuote c = true) (rest : List Char) :
    s.mask (c :: rest) = '"' :: (s.step c).mask rest := by
  rw [mask, outside_of_isQuote s hc]
  rfl

theorem mask_cons_of_not_quote {s : Quotes} {c : Char} (hs : s.span? = none)
    (hc : isQuote c = false) (rest : List Char) : s.mask (c :: rest) = c :: (s.step c).mask rest := by
  rw [mask, if_pos (outside_of_not_quote hs hc)]

/-- Whether a text leaves no quote open. -/
def closed (text : List Char) : Bool :=
  (({} : Quotes).scan text).span?.isNone

theorem span_of_closed {text : List Char} (h : closed text = true) :
    (({} : Quotes).scan text).span? = none :=
  Option.isNone_iff_eq_none.mp h

/-- Behind a text that leaves no quote open, a mask begins afresh. -/
theorem mask_append_of_closed {text : List Char} (h : closed text = true) (rest : List Char) :
    ({} : Quotes).mask (text ++ rest) = ({} : Quotes).mask text ++ ({} : Quotes).mask rest := by
  rw [mask_append, @mask_of_span_none _ {} (span_of_closed h) rfl]

end Scan.Quotes

open Scan

/-! ## Operands -/

namespace Expr.Token

/-- A text that begins with a quote. -/
def IsQuoted (text : List Char) : Prop :=
  ∃ q rest, text = q :: rest ∧ isQuote q = true

theorem eq_trim_of_mem_gathered {gathering text : List Char}
    (h : .operand text ∈ gathered gathering) : text = trim gathering.reverse := by
  unfold gathered at h
  dsimp only at h
  split at h
  · exact absurd h List.not_mem_nil
  · rw [List.mem_singleton, operand.injEq] at h
    exact h

/-- An operand that is quoted, or that a text shows without breaks in it. -/
def ShownIn (shown operand : List Char) : Prop :=
  IsQuoted operand ∨ operand <:+: shown ∧ ∀ c ∈ operand, isBreak c = false

theorem ShownIn.mono {part shown operand : List Char} (h : ShownIn part operand)
    (hpart : part <:+: shown) : ShownIn shown operand := by
  rcases h with hquoted | ⟨hwithin, hbreak⟩
  · exact Or.inl hquoted
  · exact Or.inr ⟨hwithin.trans hpart, hbreak⟩

/-- What the scan has gathered: outside quotes no break, inside an operand that begins with one. -/
def Gathers (s : Quotes) (gathering : List Char) : Prop :=
  match s.span? with
  | none => ∀ c ∈ gathering, isBreak c = false
  | some _ => ∃ front q, gathering = front ++ [q] ∧ isQuote q = true

/-- What the gathered characters show outside quotes. -/
def shownOf (s : Quotes) (gathering : List Char) : List Char :=
  match s.span? with
  | none => gathering.reverse
  | some _ => []

section

variable {s : Quotes} {gathering operand : List Char}

theorem gathers_of_span_none (hs : s.span? = none) (h : ∀ c ∈ gathering, isBreak c = false) :
    Gathers s gathering := by
  rw [Gathers, hs]
  exact h

theorem gathers_of_span_some {q c : Char} {front : List Char} (hs : s.span? = some q)
    (hc : isQuote c = true) : Gathers s (front ++ [c]) := by
  rw [Gathers, hs]
  exact ⟨front, c, rfl, hc⟩

theorem shownOf_nil (s : Quotes) : shownOf s [] = [] := by
  unfold shownOf
  split <;> rfl

theorem shownOf_of_span_none (hs : s.span? = none) : shownOf s gathering = gathering.reverse := by
  rw [shownOf, hs]

theorem shownOf_of_span_some {q : Char} (hs : s.span? = some q) : shownOf s gathering = [] := by
  rw [shownOf, hs]

theorem shownIn_gathered (h : Gathers s gathering) (hmem : .operand operand ∈ gathered gathering) :
    ShownIn (shownOf s gathering) operand := by
  rw [eq_trim_of_mem_gathered hmem]
  cases hs : s.span? with
  | none =>
    rw [Gathers, hs] at h
    rw [shownOf_of_span_none hs]
    refine Or.inr ⟨infix_trim _, fun c hc => h c ?_⟩
    exact List.mem_reverse.mp ((infix_trim _).subset hc)
  | some q =>
    rw [Gathers, hs] at h
    obtain ⟨front, q, rfl, hq⟩ := h
    rw [List.reverse_append]
    obtain ⟨rest, hrest⟩ := trim_cons_of_not_blank (isBlank_of_isQuote hq) front.reverse
    exact Or.inl ⟨q, rest, hrest, hq⟩

/-- Where nothing that is gathered behind a character shows, its operands show in the rest alone. -/
theorem shownIn_cons {c : Char} {next rest : List Char} (hnext : shownOf (s.step c) next = [])
    (h : ShownIn (shownOf (s.step c) next ++ (s.step c).mask rest) operand) :
    ShownIn (shownOf s gathering ++ s.mask (c :: rest)) operand := by
  rw [hnext] at h
  refine h.mono ?_
  rw [Quotes.mask]
  exact ⟨shownOf s gathering ++ [if s.outside c then c else '"'], [], by simp⟩

/-- Every operand is quoted or stands outside quotes as a whole. -/
theorem shownIn_of_mem_scanFrom {text : List Char} (h : Gathers s gathering)
    (hmem : .operand operand ∈ scanFrom s gathering text) :
    ShownIn (shownOf s gathering ++ s.mask text) operand := by
  have hgathered : ∀ {s : Quotes} {gathering rest : List Char}, Gathers s gathering →
      .operand operand ∈ gathered gathering → ShownIn (shownOf s gathering ++ rest) operand :=
    fun h hmem => (shownIn_gathered h hmem).mono (List.prefix_append _ _).isInfix
  -- the scan begins a new operand behind every token, with nothing gathered
  have hafresh : ∀ s : Quotes, s.span? = none → Gathers s [] :=
    fun s hs => gathers_of_span_none hs fun c hc => absurd hc List.not_mem_nil
  fun_induction scanFrom s gathering text with
  | case1 s gathering => exact hgathered h hmem
  | case2 s gathering c rest q hs hcloses ih =>
    have hstep := Quotes.span_step_of_closes hs hcloses
    rcases List.mem_cons.mp hmem with heq | hmem
    · rw [Gathers, hs] at h
      obtain ⟨front, q, rfl, hq⟩ := h
      rw [Token.operand.injEq] at heq
      exact Or.inl ⟨q, front.reverse ++ [c], by rw [heq]; simp, hq⟩
    · exact shownIn_cons (shownOf_nil _) (ih (hafresh _ hstep) hmem)
  | case3 s gathering c rest q hs hopen ih =>
    -- the operand goes on, and still begins with its quote
    have hstep := Quotes.span_step_of_not_closes hs (Bool.eq_false_iff.mpr hopen)
    rw [Gathers, hs] at h
    obtain ⟨front, q', rfl, hq⟩ := h
    exact shownIn_cons (shownOf_of_span_some hstep)
      (ih (@gathers_of_span_some _ _ _ (c :: front) hstep hq) hmem)
  | case4 s gathering c rest hs hc ih =>
    have hstep := Quotes.span_step_of_opening hs hc
    rcases List.mem_append.mp hmem with hmem | hmem
    · exact hgathered h hmem
    · exact shownIn_cons (shownOf_of_span_some hstep)
        (ih (@gathers_of_span_some _ _ _ [] hstep hc) hmem)
  | case5 s gathering c rest hs hc op hop ih =>
    rw [Bool.not_eq_true] at hc
    have hstep := Quotes.span_step_of_not_quote hs hc
    rcases List.mem_append.mp hmem with hmem | hmem
    · exact hgathered h hmem
    · have hlater := (List.mem_cons.mp hmem).resolve_left (by simp)
      exact shownIn_cons (shownOf_nil _) (ih (hafresh _ hstep) hlater)
  | case6 s gathering c rest hs hc hop hblank ih =>
    rw [Bool.not_eq_true] at hc
    have hstep := Quotes.span_step_of_not_quote hs hc
    rcases List.mem_append.mp hmem with hmem | hmem
    · exact hgathered h hmem
    · exact shownIn_cons (shownOf_nil _) (ih (hafresh _ hstep) hmem)
  | case7 s gathering c rest hs hc hop hblank ih =>
    rw [Bool.not_eq_true] at hc
    have hstep := Quotes.span_step_of_not_quote hs hc
    rw [Gathers, hs] at h
    -- the operand goes on with a character that the mask shows
    have hmore : ∀ d ∈ c :: gathering, isBreak d = false := by
      rw [List.forall_mem_cons, isBreak, hc, isOperator_iff, hop]
      exact ⟨rfl, h⟩
    have hrest := ih (gathers_of_span_none hstep hmore) hmem
    rw [shownOf_of_span_none hstep] at hrest
    rw [shownOf_of_span_none hs, Quotes.mask_cons_of_not_quote hs hc]
    simpa using hrest

end

theorem shownIn_of_mem_scan {text operand : List Char} (hmem : .operand operand ∈ scan text) :
    ShownIn (({} : Quotes).mask text) operand :=
  shownIn_of_mem_scanFrom (gathers_of_span_none rfl (by simp)) hmem

end Expr.Token

/-! ## Visible references -/

/-- A text whose references outside quotes are shared. -/
def Visible (env₁ env₂ : Environment) (text : List Char) : Prop :=
  ∀ run, run <:+: ({} : Quotes).mask text → '"' ∉ run → Shared env₁ env₂ run

section

variable {env₁ env₂ : Environment} {text : List Char}

theorem Shared.visible (h : Shared env₁ env₂ text) : Visible env₁ env₂ text :=
  fun _ hrun hquote => h.of_isInfix (Quotes.infix_of_infix_mask hrun hquote)

theorem Visible.of_mask (h : Visible env₁ env₂ text) {part : List Char}
    (hpart : ({} : Quotes).mask part <:+: ({} : Quotes).mask text) : Visible env₁ env₂ part :=
  fun run hrun hquote => h run (hrun.trans hpart) hquote

theorem Visible.shared_operand (h : Visible env₁ env₂ text) {operand : List Char}
    (hmem : .operand operand ∈ Expr.Token.scan text) :
    Expr.Token.IsQuoted operand ∨ Shared env₁ env₂ operand := by
  rcases Expr.Token.shownIn_of_mem_scan hmem with hquoted | ⟨hwithin, hbreak⟩
  · exact Or.inl hquoted
  · exact Or.inr (h operand hwithin fun hmem => absurd (hbreak '"' hmem) (by decide))

/-! ## Replaced groups -/

/-- How the mask of the text of a value may begin, if it is not to complete the beginning of a
    reference with a name behind it. -/
def BeginsApart (mask : List Char) : Prop :=
  ∃ c rest, mask = c :: rest ∧ c ≠ 'E' ∧ c ≠ 'V' ∧ (c = 'N' → rest.head? = some 'a')
    ∧ (c = '\x7b' → ∃ e ∈ rest.head?, e = '"' ∨ e = '\x7d')

/-- The ends of the beginning of a reference. -/
theorem opening_eq_append {part tail : List Char} (h : opening = part ++ tail) :
    tail ∈ [opening, "ENV\x7b".toList, "NV\x7b".toList, "V\x7b".toList, ['\x7b'], []] := by
  have htail : tail <:+ opening := ⟨part, h.symm⟩
  simpa [opening, List.suffix_cons_iff] using htail

/-- A mask that begins apart completes the beginning of a reference to one without a name at most. -/
theorem BeginsApart.completes {mask back part tail name rest : List Char} {c : Char}
    (hmask : BeginsApart mask) (hdollar : '$' ∉ mask) (hc : c ≠ '"') (hname : '"' ∉ name)
    (hopening : opening = part ++ tail) (h : mask ++ back = tail ++ (name ++ c :: rest)) :
    tail = [] ∨ (name = [] ∧ c = '\x7d') ∨ '\x7d' ∈ name := by
  obtain ⟨d, shown, rfl, hE, hV, hN, hbrace⟩ := hmask
  have htail := opening_eq_append hopening
  simp only [List.mem_cons, List.not_mem_nil, or_false] at htail
  rcases htail with rfl | rfl | rfl | rfl | rfl | rfl
  · have hd : d = '$' := (List.cons.inj h).1
    exact absurd (by rw [hd]; simp) hdollar
  · exact absurd (List.cons.inj h).1 hE
  · obtain ⟨hd, hnext⟩ := List.cons.inj h
    obtain ⟨shown, rfl⟩ := List.head?_eq_some_iff.mp (hN hd)
    exact absurd (List.cons.inj hnext).1 (by decide)
  · exact absurd (List.cons.inj h).1 hV
  · obtain ⟨hd, hnext⟩ := List.cons.inj h
    obtain ⟨e, he, hcase⟩ := hbrace hd
    obtain ⟨shown, rfl⟩ := List.head?_eq_some_iff.mp he
    cases name with
    | nil =>
      obtain rfl : e = c := (List.cons.inj hnext).1
      exact Or.inr (Or.inl ⟨rfl, hcase.resolve_left hc⟩)
    | cons n name =>
      obtain rfl : e = n := (List.cons.inj hnext).1
      rcases hcase with rfl | rfl
      · exact absurd List.mem_cons_self hname
      · exact Or.inr (Or.inr List.mem_cons_self)
  · exact Or.inl rfl

/-- A reference in a text into which another is put stands before or behind it, or begins before it
    and is not closed there, or has no name. -/
theorem infix_spliced {front mask back name : List Char} {c : Char} (hc : c ≠ '"')
    (hname : '"' ∉ name) (hmask : BeginsApart mask) (hdollar : '$' ∉ mask)
    (h : opening ++ name ++ [c] <:+: front ++ (mask ++ back)) :
    opening ++ name ++ [c] <:+: front ∨ opening ++ name ++ [c] <:+: back
      ∨ (∃ name' tail, name = name' ++ tail ∧ opening ++ name' <:+ front)
      ∨ (name = [] ∧ c = '\x7d') ∨ '\x7d' ∈ name := by
  obtain ⟨x, y, heq⟩ := h
  have hassoc : x ++ (opening ++ (name ++ c :: y)) = front ++ (mask ++ back) := by
    rw [← heq]
    simp
  rcases List.append_eq_append_iff.mp hassoc with ⟨part, rfl, hpart⟩ | ⟨part, -, hpart⟩
  · rcases List.append_eq_append_iff.mp hpart with ⟨part, rfl, hrest⟩ | ⟨part, hopening, hrest⟩
    · rcases append_eq_append_cons hrest.symm with ⟨tail, rfl, -⟩ | ⟨tail, rfl, -⟩
      · exact Or.inr (Or.inr (Or.inl ⟨part, tail, rfl, ⟨x, rfl⟩⟩))
      · exact Or.inl ⟨x, tail, by simp⟩
    · rcases hmask.completes hdollar hc hname hopening hrest with rfl | hnone
      · rw [List.append_nil] at hopening
        exact Or.inr (Or.inr (Or.inl ⟨[], name, rfl, ⟨x, by rw [hopening, List.append_nil]⟩⟩))
      · exact Or.inr (Or.inr (Or.inr hnone))
  · -- the reference begins behind the front, and its dollar sign does not stand in the mask
    rcases List.append_eq_append_iff.mp hpart with ⟨part, rfl, hrest⟩ | ⟨part, hmask, hrest⟩
    · exact Or.inr (Or.inl ⟨part, y, by simp [hrest]⟩)
    · cases part with
      | nil => exact Or.inr (Or.inl ⟨[], y, by simpa using hrest⟩)
      | cons b part =>
        have hb : '$' = b := (List.cons.inj hrest).1
        rw [hmask] at hdollar
        exact absurd (by rw [hb]; simp) hdollar

theorem beginsApart_cons {c : Char} (hquote : isQuote c = false) (hc : c ∉ "EVN\x7b".toList)
    (rest : List Char) : BeginsApart (({} : Quotes).mask (c :: rest)) := by
  have hne : ∀ d ∈ "EVN\x7b".toList, c ≠ d := by
    rintro d hd rfl
    exact hc hd
  rw [Quotes.mask_cons_of_not_quote rfl hquote]
  exact ⟨c, _, rfl, hne 'E' (by simp), hne 'V' (by simp), fun h => absurd h (hne 'N' (by simp)),
    fun h => absurd h (hne '\x7b' (by simp))⟩

theorem beginsApart_of_isDigit {c : Char} (h : c.isDigit = true) (rest : List Char) :
    BeginsApart (({} : Quotes).mask (c :: rest)) := by
  have hne : ∀ {d : Char}, d.isDigit = false → c ≠ d := fun hd => ne_of_class h hd
  refine beginsApart_cons (by simp [isQuote, hne (d := '"') rfl, hne (d := '\'') rfl]) ?_ rest
  intro hmem
  have hall : "EVN\x7b".toList.all (!Char.isDigit ·) = true := rfl
  have hnot := List.all_eq_true.mp hall c hmem
  rw [h] at hnot
  exact absurd hnot (by decide)

theorem beginsApart_floatText (x : Float) :
    BeginsApart (({} : Quotes).mask (Number.floatText .plain x)) := by
  rw [Number.floatText]
  cases hparts : Number.partsOf x with
  | nan => exact ⟨'N', ['a', 'N'], rfl, by decide, by decide, fun _ => rfl, by decide⟩
  | infinite negative => cases negative <;> exact beginsApart_cons rfl (by decide) _
  | finite negative m =>
    cases negative with
    | true => exact beginsApart_cons rfl (by decide) _
    | false =>
      obtain ⟨whole, fraction, htext, hwhole, -, -⟩ := Number.exists_magnitudeText
        (Number.holds_of_decode hparts) (Or.inr rfl : Number.FloatForm.plain.isPositional m)
      show BeginsApart (({} : Quotes).mask (Number.magnitudeText .double .plain m))
      rw [htext]
      cases whole with
      | nil => exact absurd hwhole (by decide)
      | cons c rest =>
        exact beginsApart_of_isDigit (Number.isDigit_of_mem_isDigits hwhole List.mem_cons_self) _

theorem beginsApart_integerText (n : ℤ) :
    BeginsApart (({} : Quotes).mask (Number.integerText n)) := by
  have hdigits := Number.isDigits_digitsOf n.natAbs
  rw [Number.integerText]
  cases hneg : decide (n < 0) with
  | true => exact beginsApart_cons rfl (by decide) _
  | false =>
    show BeginsApart (({} : Quotes).mask (Number.digitsOf n.natAbs))
    cases hdigitsOf : Number.digitsOf n.natAbs with
    | nil => exact absurd hdigitsOf (Number.digitsOf_ne_nil _)
    | cons c rest =>
      rw [hdigitsOf] at hdigits
      exact beginsApart_of_isDigit (Number.isDigit_of_mem_isDigits hdigits List.mem_cons_self) rest

/-- No text of a value completes the beginning of a reference: an object may add its brace, but a
    quote or another brace follows. -/
theorem beginsApart_groupText (v : Value) :
    BeginsApart (({} : Quotes).mask (Expr.groupText v)) := by
  cases v with
  | null => exact beginsApart_cons rfl (by decide) _
  | bool b => cases b <;> exact beginsApart_cons rfl (by decide) _
  | int n => exact beginsApart_integerText n.toInt
  | float x => exact beginsApart_floatText x
  | string s =>
    show BeginsApart (({} : Quotes).mask (quote s.toList))
    rw [quote, List.cons_append, Quotes.mask_cons_of_isQuote rfl]
    exact ⟨'"', _, rfl, by decide, by decide, fun h => absurd h (by decide),
      fun h => absurd h (by decide)⟩
  | array items =>
    show BeginsApart (({} : Quotes).mask (Json.write (.array items)))
    rw [Json.write]
    exact beginsApart_cons rfl (by decide) _
  | object entries =>
    show BeginsApart (({} : Quotes).mask (Json.write (.object entries)))
    rw [Json.write, List.cons_append, Quotes.mask_cons_of_not_quote rfl rfl]
    refine ⟨'\x7b', _, rfl, by decide, by decide, fun h => absurd h (by decide), fun _ => ?_⟩
    cases entries with
    | nil => exact ⟨'\x7d', rfl, Or.inr rfl⟩
    | cons entry rest =>
      obtain ⟨key, v⟩ := entry
      have hquote : ∃ tail, [','].intercalate (Json.writeEntries ((key, v) :: rest)) ++ ['\x7d']
          = '"' :: tail := by
        rw [Json.writeEntries, Json.writeString]
        cases Json.writeEntries rest with
        | nil => exact ⟨_, by rw [List.intercalate_singleton]; rfl⟩
        | cons next others => exact ⟨_, by rw [List.intercalate_cons_cons]; rfl⟩
      obtain ⟨tail, htail⟩ := hquote
      rw [htail, Quotes.mask_cons_of_isQuote rfl]
      exact ⟨'"', rfl, Or.inl rfl⟩

/-- Where a group outside quotes is replaced. -/
theorem mask_lastGroup {before inner after : List Char} (hgroup : Expr.LastGroup text before inner after)
    (hbefore : Quotes.closed before = true) (hinner : Quotes.closed inner = true) :
    ({} : Quotes).mask text = ({} : Quotes).mask before
      ++ '(' :: (({} : Quotes).mask inner ++ ')' :: ({} : Quotes).mask after) := by
  have hopen : ∀ rest, ({} : Quotes).mask ('(' :: rest) = '(' :: ({} : Quotes).mask rest :=
    fun rest => by
      rw [Quotes.mask_cons_of_not_quote rfl rfl, @Quotes.mask_of_span_none _ {} rfl rfl]
  have hclose : ∀ rest, ({} : Quotes).mask (')' :: rest) = ')' :: ({} : Quotes).mask rest :=
    fun rest => by
      rw [Quotes.mask_cons_of_not_quote rfl rfl, @Quotes.mask_of_span_none _ {} rfl rfl]
  rw [hgroup.text_eq, Quotes.mask_append_of_closed hbefore, hopen,
    Quotes.mask_append_of_closed hinner, hclose]

section

variable {before inner after : List Char}

theorem Visible.of_before (h : Visible env₁ env₂ text)
    (hgroup : Expr.LastGroup text before inner after) (hbefore : Quotes.closed before = true)
    (hinner : Quotes.closed inner = true) : Visible env₁ env₂ before := by
  apply h.of_mask
  rw [mask_lastGroup hgroup hbefore hinner]
  exact (List.prefix_append _ _).isInfix

theorem Visible.of_inner (h : Visible env₁ env₂ text)
    (hgroup : Expr.LastGroup text before inner after) (hbefore : Quotes.closed before = true)
    (hinner : Quotes.closed inner = true) : Visible env₁ env₂ inner := by
  apply h.of_mask
  rw [mask_lastGroup hgroup hbefore hinner]
  exact ⟨({} : Quotes).mask before ++ ['('], ')' :: ({} : Quotes).mask after, by simp⟩

theorem Visible.of_after (h : Visible env₁ env₂ text)
    (hgroup : Expr.LastGroup text before inner after) (hbefore : Quotes.closed before = true)
    (hinner : Quotes.closed inner = true) : Visible env₁ env₂ after := by
  apply h.of_mask
  rw [mask_lastGroup hgroup hbefore hinner]
  exact ⟨({} : Quotes).mask before ++ '(' :: (({} : Quotes).mask inner ++ [')']), [], by simp⟩

/-- A reference that begins before a group is closed there, since no group begins inside it. -/
theorem Visible.close_mem_of_before (h : Visible env₁ env₂ text)
    (hgroup : Expr.LastGroup text before inner after) (hbefore : Quotes.closed before = true)
    (hinner : Quotes.closed inner = true) {name : List Char}
    (hname : opening ++ name <:+ ({} : Quotes).mask before) (hquote : '"' ∉ name) :
    '\x7d' ∈ name := by
  obtain ⟨front, hfront⟩ := hname
  have hshared : Shared env₁ env₂ (opening ++ name ++ ['(']) := by
    refine h _ ?_ (by simp [opening, hquote])
    rw [mask_lastGroup hgroup hbefore hinner, ← hfront]
    exact ⟨front, ({} : Quotes).mask inner ++ ')' :: ({} : Quotes).mask after, by simp⟩
  exact hshared.ungrouped name (List.infix_refl _)

/-- A text that shows no dollar sign may take the place of a group outside quotes. -/
theorem Visible.replaced {v : Value} (h : Visible env₁ env₂ text)
    (hgroup : Expr.LastGroup text before inner after) (hbefore : Quotes.closed before = true)
    (hinner : Quotes.closed inner = true) (hv : Quotes.closed (Expr.groupText v) = true)
    (hdollar : '$' ∉ ({} : Quotes).mask (Expr.groupText v)) :
    Visible env₁ env₂ (before ++ Expr.groupText v ++ after) := by
  intro run hrun hquote
  rw [List.append_assoc, Quotes.mask_append_of_closed hbefore, Quotes.mask_append_of_closed hv] at hrun
  have hcases : ∀ {name : List Char} {c : Char}, c ≠ '"' → opening ++ name ++ [c] <:+: run →
      Shared env₁ env₂ (opening ++ name ++ [c]) ∨ (name = [] ∧ c = '\x7d') ∨ '\x7d' ∈ name := by
    intro name c hc hpart
    have hpartQuote : '"' ∉ opening ++ name ++ [c] := fun hmem => hquote (hpart.subset hmem)
    have hname : '"' ∉ name := fun hmem => hpartQuote (by simp [hmem])
    rcases infix_spliced hc hname (beginsApart_groupText v) hdollar (hpart.trans hrun) with
      hwithin | hwithin | ⟨name', tail, rfl, hsuffix⟩ | hnone | hmem
    · exact Or.inl (h.of_before hgroup hbefore hinner _ hwithin hpartQuote)
    · exact Or.inl (h.of_after hgroup hbefore hinner _ hwithin hpartQuote)
    · have hname' : '"' ∉ name' := fun hmem => hname (List.mem_append_left _ hmem)
      have hclose := h.close_mem_of_before hgroup hbefore hinner hsuffix hname'
      exact Or.inr (Or.inr (List.mem_append_left _ hclose))
    · exact Or.inr (Or.inl hnone)
    · exact Or.inr (Or.inr hmem)
  refine ⟨?_, ?_, ?_⟩
  · intro name hname hclose hne
    rcases hcases (by decide) hname with hshared | ⟨hnil, -⟩ | hmem
    · exact hshared.agrees name (List.infix_refl _) hclose hne
    · exact absurd hnil hne
    · exact absurd hmem hclose
  · intro name hname hclose
    rcases hcases (by decide) hname with hshared | ⟨rfl, -⟩ | hmem
    · exact hshared.on_line name (List.infix_refl _) hclose
    · exact List.not_mem_nil
    · exact absurd hmem hclose
  · intro name hname
    rcases hcases (by decide) hname with hshared | ⟨-, hc⟩ | hmem
    · exact hshared.ungrouped name (List.infix_refl _)
    · exact absurd hc (by decide)
    · exact hmem

end

end

end ConfigLang
