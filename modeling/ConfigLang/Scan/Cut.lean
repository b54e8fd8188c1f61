import ConfigLang.Scan.Quotes
import ConfigLang.Text.Blank

set_option autoImplicit false

/-! # Cutting a text where a scan says so

A cut is made at the first character that a scan accepts: the first one outside quotes with a given
property, or the first such one that also stands outside all brackets and braces. Main statement: a
cut loses the found character and nothing else (`cutWhen?_eq_some`). -/

namespace ConfigLang.Scan

/-- Cut a text at the first character that `hit` accepts, where `step` carries the state of the scan
    over the characters before it: what stands before the character, and what follows it. -/
def cutWhen? {σ : Type} (step : σ → Char → σ) (hit : σ → Char → Bool) (s : σ) :
    List Char → Option (List Char × List Char)
  | [] => none
  | c :: rest =>
    if hit s c then some ([], rest)
    else (cutWhen? step hit (step s c) rest).map fun (before, after) => (c :: before, after)

/-- The character at which a text is cut is accepted behind what stands before it. -/
theorem exists_hit_of_cutWhen? {σ : Type} {step : σ → Char → σ} {hit : σ → Char → Bool} {s : σ}
    {text before after : List Char} (h : cutWhen? step hit s text = some (before, after)) :
    ∃ c, text = before ++ c :: after ∧ hit (before.foldl step s) c = true := by
  induction text generalizing s before with
  | nil => simp [cutWhen?] at h
  | cons c rest ih =>
    unfold cutWhen? at h
    split at h
    next hc =>
      simp only [Option.some.injEq, Prod.mk.injEq] at h
      obtain ⟨rfl, rfl⟩ := h
      exact ⟨c, rfl, hc⟩
    next =>
      simp only [Option.map_eq_some_iff, Prod.mk.injEq, Prod.exists] at h
      obtain ⟨front, back, hcut, rfl, rfl⟩ := h
      obtain ⟨d, rfl, hd⟩ := ih hcut
      exact ⟨d, rfl, hd⟩

theorem cutWhen?_eq_some {σ : Type} {step : σ → Char → σ} {hit : σ → Char → Bool} {s : σ}
    {text before after : List Char} (h : cutWhen? step hit s text = some (before, after)) :
    ∃ c, text = before ++ c :: after := by
  obtain ⟨c, htext, -⟩ := exists_hit_of_cutWhen? h
  exact ⟨c, htext⟩

theorem length_cutWhen? {σ : Type} {step : σ → Char → σ} {hit : σ → Char → Bool} {s : σ}
    {text before after : List Char} (h : cutWhen? step hit s text = some (before, after)) :
    before.length + after.length + 1 = text.length := by
  obtain ⟨c, rfl⟩ := cutWhen?_eq_some h
  simp only [List.length_append, List.length_cons]
  omega

/-- Where no character is accepted, the scan goes on behind the text. -/
theorem cutWhen?_append {σ : Type} {step : σ → Char → σ} {hit : σ → Char → Bool} {s : σ}
    {text : List Char} (h : cutWhen? step hit s text = none) (rest : List Char) :
    cutWhen? step hit s (text ++ rest)
      = (cutWhen? step hit (text.foldl step s) rest).map
          fun (before, after) => (text ++ before, after) := by
  induction text generalizing s with
  | nil => simp
  | cons c text ih =>
    unfold cutWhen? at h
    split at h
    · simp at h
    next hc =>
      rw [List.cons_append, cutWhen?, if_neg hc, ih (Option.map_eq_none_iff.mp h)]
      simp [Function.comp_def]

/-- Where a text is cut, a longer one is cut at the same character. -/
theorem cutWhen?_append_of_some {σ : Type} {step : σ → Char → σ} {hit : σ → Char → Bool} {s : σ}
    {text before after : List Char} (h : cutWhen? step hit s text = some (before, after))
    (rest : List Char) : cutWhen? step hit s (text ++ rest) = some (before, after ++ rest) := by
  induction text generalizing s before with
  | nil => simp [cutWhen?] at h
  | cons c text ih =>
    unfold cutWhen? at h
    rw [List.cons_append, cutWhen?]
    split at h
    next hc =>
      simp only [Option.some.injEq, Prod.mk.injEq] at h
      obtain ⟨rfl, rfl⟩ := h
      rw [if_pos hc]
    next hc =>
      simp only [Option.map_eq_some_iff, Prod.mk.injEq, Prod.exists] at h
      obtain ⟨front, back, hcut, rfl, rfl⟩ := h
      rw [if_neg hc, ih hcut, Option.map_some]

/-- What stands before the character of a cut is not cut itself. -/
theorem cutWhen?_before_eq_none {σ : Type} {step : σ → Char → σ} {hit : σ → Char → Bool} {s : σ}
    {text before after : List Char} (h : cutWhen? step hit s text = some (before, after)) :
    cutWhen? step hit s before = none := by
  obtain ⟨c, rfl⟩ := cutWhen?_eq_some h
  cases hbefore : cutWhen? step hit s before with
  | none => rfl
  | some found =>
    obtain ⟨front, back⟩ := found
    have hlonger := cutWhen?_append_of_some hbefore (c :: after)
    rw [h, Option.some.injEq, Prod.mk.injEq] at hlonger
    have hlength := length_cutWhen? hbefore
    rw [hlonger.1] at hlength
    omega

/-- Where a text is not cut, neither is a part of it. -/
theorem cutWhen?_append_eq_none {σ : Type} {step : σ → Char → σ} {hit : σ → Char → Bool} {s : σ}
    {text rest : List Char} (h : cutWhen? step hit s (text ++ rest) = none) :
    cutWhen? step hit s text = none ∧ cutWhen? step hit (text.foldl step s) rest = none := by
  induction text generalizing s with
  | nil => exact ⟨rfl, h⟩
  | cons c text ih =>
    rw [List.cons_append, cutWhen?] at h
    split at h
    · exact absurd h (by simp)
    next hc =>
      obtain ⟨hfront, hback⟩ := ih (Option.map_eq_none_iff.mp h)
      exact ⟨by rw [cutWhen?, if_neg hc, hfront, Option.map_none], hback⟩

theorem hit_of_cutWhen?_eq_none {σ : Type} {step : σ → Char → σ} {hit : σ → Char → Bool} {s : σ}
    {front back : List Char} {c : Char} (h : cutWhen? step hit s (front ++ c :: back) = none) :
    hit (front.foldl step s) c = false := by
  have hc := (cutWhen?_append_eq_none h).2
  rw [cutWhen?] at hc
  split at hc
  · exact absurd hc (by simp)
  next hhit => exact Bool.eq_false_iff.mpr hhit

theorem cutWhen?_eq_none_of_imp {σ : Type} {step : σ → Char → σ} {hit hit' : σ → Char → Bool}
    {s : σ} {text : List Char} (himp : ∀ c ∈ text, ∀ s, hit' s c = true → hit s c = true)
    (h : cutWhen? step hit s text = none) : cutWhen? step hit' s text = none := by
  induction text generalizing s with
  | nil => rfl
  | cons c rest ih =>
    rw [cutWhen?] at h
    split at h
    · exact absurd h (by simp)
    next hc =>
      have hrest := ih (fun d hd => himp d (List.mem_cons_of_mem _ hd)) (Option.map_eq_none_iff.mp h)
      rw [cutWhen?, if_neg fun hc' => hc (himp c List.mem_cons_self s hc'), hrest, Option.map_none]

/-- A text in which no character satisfies `p` is not cut where `p` is asked for. -/
theorem cutWhen?_eq_none_of_forall {σ : Type} {step : σ → Char → σ} {ok : σ → Char → Bool}
    {p : Char → Bool} {text : List Char} (h : ∀ c ∈ text, p c = false) (s : σ) :
    cutWhen? step (fun s c => ok s c && p c) s text = none := by
  induction text generalizing s with
  | nil => rfl
  | cons c rest ih =>
    have hrest := ih (fun d hd => h d (List.mem_cons_of_mem _ hd)) (step s c)
    simp [cutWhen?, h c List.mem_cons_self, hrest]

/-! ## Outside quotes -/

/-- Cut at the first character outside quotes that satisfies `p`. -/
def cutUnquoted? (p : Char → Bool) (text : List Char) : Option (List Char × List Char) :=
  cutWhen? Quotes.step (fun s c => s.outside c && p c) {} text

/-- The two sides of the first equals sign outside quotes, trimmed. -/
def keyValue? (line : List Char) : Option (List Char × List Char) :=
  (cutUnquoted? (· == '=') line).map fun (key, value) => (Text.trim key, Text.trim value)

/-! ## Outside quotes, brackets and braces -/

/-- What a scan knows that also counts brackets and braces. -/
structure Nesting where
  quotes : Quotes := {}
  /-- Brackets opened less brackets closed. -/
  brackets : Int := 0
  /-- Braces opened less braces closed. -/
  braces : Int := 0
  deriving DecidableEq, Repr

namespace Nesting

/-- How a character changes the count of brackets. -/
def bracketChange : Char → Int
  | '[' => 1
  | ']' => -1
  | _ => 0

/-- How a character changes the count of braces. -/
def braceChange : Char → Int
  | '\x7b' => 1
  | '\x7d' => -1
  | _ => 0

/-- Read one character; inside quotes, brackets and braces do not count. -/
def step (s : Nesting) (c : Char) : Nesting where
  quotes := s.quotes.step c
  brackets := if s.quotes.outside c then s.brackets + bracketChange c else s.brackets
  braces := if s.quotes.outside c then s.braces + braceChange c else s.braces

/-- Whether `c`, read next, stands outside quotes, brackets and braces, and is none of these. -/
def atTop (s : Nesting) (c : Char) : Bool :=
  s.quotes.outside c && bracketChange c == 0 && braceChange c == 0
    && s.brackets == 0 && s.braces == 0

end Nesting

/-- Cut at the first character outside quotes, brackets and braces that satisfies `p`. -/
def cutTopLevel? (p : Char → Bool) (text : List Char) : Option (List Char × List Char) :=
  cutWhen? Nesting.step (fun s c => s.atTop c && p c) {} text

/-- The pieces between the marks that stand outside quotes, brackets and braces; each piece is
    scanned afresh. -/
def splitTopLevel (mark : Char) (text : List Char) : List (List Char) :=
  match _h : cutTopLevel? (· == mark) text with
  | none => [text]
  | some (piece, rest) => piece :: splitTopLevel mark rest
termination_by text.length
decreasing_by
  have := length_cutWhen? _h
  omega

theorem splitTopLevel_of_none {mark : Char} {text : List Char}
    (h : cutTopLevel? (· == mark) text = none) : splitTopLevel mark text = [text] := by
  rw [splitTopLevel]
  split
  · rfl
  next hcut =>
    rw [h] at hcut
    exact absurd hcut (by simp)

theorem splitTopLevel_of_some {mark : Char} {text piece rest : List Char}
    (h : cutTopLevel? (· == mark) text = some (piece, rest)) :
    splitTopLevel mark text = piece :: splitTopLevel mark rest := by
  rw [splitTopLevel]
  split
  next hcut =>
    rw [h] at hcut
    exact absurd hcut (by simp)
  next hcut =>
    rw [h, Option.some.injEq, Prod.mk.injEq] at hcut
    rw [← hcut.1, ← hcut.2]

theorem splitTopLevel_ne_nil (mark : Char) (text : List Char) : splitTopLevel mark text ≠ [] := by
  rw [splitTopLevel]
  split <;> simp

/-- Joining the pieces with the mark gives the text back. -/
theorem intercalate_splitTopLevel (mark : Char) (text : List Char) :
    [mark].intercalate (splitTopLevel mark text) = text := by
  fun_induction splitTopLevel mark text with
  | case1 text _ => exact List.intercalate_singleton
  | case2 text first rest hcut ih =>
    obtain ⟨c, rfl, hhit⟩ := exists_hit_of_cutWhen? hcut
    rw [Bool.and_eq_true, beq_iff_eq] at hhit
    obtain ⟨next, others, hrest⟩ := List.exists_cons_of_ne_nil (splitTopLevel_ne_nil mark rest)
    rw [hrest] at ih ⊢
    rw [List.intercalate_cons_cons, ih, hhit.2, List.append_assoc, List.singleton_append]

/-- No piece is cut again. -/
theorem cutTopLevel?_of_mem_splitTopLevel {mark : Char} {text piece : List Char}
    (h : piece ∈ splitTopLevel mark text) : cutTopLevel? (· == mark) piece = none := by
  fun_induction splitTopLevel mark text with
  | case1 text hcut => exact List.mem_singleton.mp h ▸ hcut
  | case2 text first rest hcut ih =>
    rcases List.mem_cons.mp h with rfl | hrest
    · exact cutWhen?_before_eq_none hcut
    · exact ih hrest

theorem infix_of_mem_splitTopLevel {mark : Char} {text piece : List Char}
    (h : piece ∈ splitTopLevel mark text) : piece <:+: text := by
  fun_induction splitTopLevel mark text with
  | case1 text _ => exact List.mem_singleton.mp h ▸ List.infix_refl text
  | case2 text first rest hcut ih =>
    obtain ⟨c, rfl⟩ := cutWhen?_eq_some hcut
    rcases List.mem_cons.mp h with rfl | hrest
    · exact (List.prefix_append _ _).isInfix
    · exact (ih hrest).trans ⟨first ++ [c], [], by simp⟩

theorem length_le_of_mem_splitTopLevel {mark : Char} {text piece : List Char}
    (h : piece ∈ splitTopLevel mark text) : piece.length ≤ text.length :=
  (infix_of_mem_splitTopLevel h).length_le

end ConfigLang.Scan
