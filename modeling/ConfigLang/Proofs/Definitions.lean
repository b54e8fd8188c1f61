import ConfigLang.Proofs.ReadingLines
import ConfigLang.Scan.Comment

set_option autoImplicit false

/-! # Definitions of a document

What a document defines, with the line and the section in which it does so, can be told from its
lines alone (`definitions`): headers, statements, and the lines that a value goes on for. Main
statement: where reading comes to the end of the lines, it gives what their definitions give one
after another (`foldlM_definitions`). -/

namespace ConfigLang

open Text

namespace Document

/-! ## Lines that a value takes -/

theorem gatherBlock_suffix (opening closing : Char) (text : List Char)
    (lines : List (List Char)) : (gatherBlock opening closing text lines).2 <:+ lines := by
  induction lines generalizing text with
  | nil => exact List.suffix_refl []
  | cons line rest ih =>
    rw [gatherBlock]
    split
    · exact List.suffix_refl _
    · split <;> exact (ih _).trans (List.suffix_cons line rest)

theorem captureBlock_suffix (initial : List Char) (rest : List (List Char)) :
    (captureBlock initial rest).2 <:+ rest := by
  unfold captureBlock
  split
  · exact gatherBlock_suffix _ _ _ _
  · exact gatherBlock_suffix _ _ _ _
  · exact List.suffix_refl rest

/-- The lines that a value goes on for below the one on which it begins. -/
def rowsBelow (initial : List Char) (rest : List (List Char)) : List (List Char) :=
  rest.take (rest.length - (captureBlock initial rest).2.length)

theorem rowsBelow_append (initial : List Char) (rest : List (List Char)) :
    rowsBelow initial rest ++ (captureBlock initial rest).2 = rest := by
  conv =>
    lhs
    rw [List.suffix_iff_eq_drop.mp (captureBlock_suffix initial rest)]
  exact List.take_append_drop _ rest

/-! ## Definitions -/

/-- The text of the path that a key stands for in a part of a document. -/
def Part.spelled (part : Part) (sectionPath : List String) (key : String) : String :=
  match part with
  | .body => KeyPath.text (sectionPath ++ [key])
  | .defaults => key

/-- A statement of a document, and where it stands. -/
structure Definition where
  part : Part
  /-- The number of the line on which it begins. -/
  line : Nat
  sectionPath : List String
  key : String
  /-- The text of its value. -/
  text : List Char
  /-- The lines that its value goes on for. -/
  rows : List (List Char)
  deriving DecidableEq

namespace Definition

/-- The text of the path that is defined. -/
def path (d : Definition) : String :=
  d.part.spelled d.sectionPath d.key

/-- Put the value of a definition where it belongs, whatever section was current. -/
def run (env : Environment) (b : Building) (d : Definition) : Except Fault Building :=
  d.part.put env { b with sectionPath := d.sectionPath } d.key d.text

end Definition

/-- The definitions among the lines of a part, where the first line has a number and stands in a
    section; they end with the first line that is malformed. -/
def definitions (part : Part) (sectionPath : List String) (number : Nat)
    (lines : List (List Char)) : List Definition :=
  match lines with
  | [] => []
  | raw :: rest =>
    match Line.ofText part (trim raw) with
    | .silent => definitions part sectionPath (number + 1) rest
    | .header name => definitions part (KeyPath.ofHeader name) (number + 1) rest
    | .defaultsHeader => definitions .defaults sectionPath (number + 1) rest
    | .malformed _ => []
    | .statement key initial =>
      ⟨part, number, sectionPath, key, (captureBlock initial rest).1, rowsBelow initial rest⟩
        :: definitions part sectionPath (number + 1 + (rowsBelow initial rest).length)
          (captureBlock initial rest).2
termination_by lines.length
decreasing_by
  · simp
  · simp
  · simp
  · have := length_captureBlock_le initial rest
    simp only [List.length_cons]
    omega

/-- The definitions of a document that includes no file. -/
def definitionsOf (text : List Char) : List Definition :=
  definitions .body [] 1 ((Scan.uncommentedLines text).map trim)

/-! ## Where definitions stand -/

/-- Induction over the lines down to a definition: one case for the line that states it, and one for
    each kind of line above it. -/
@[elab_as_elim]
theorem mem_definitions_induction {d : Definition}
    {motive : Part → List String → Nat → List (List Char) → Prop}
    (here : ∀ raw rest initial, Line.ofText d.part (trim raw) = .statement d.key initial →
      motive d.part d.sectionPath d.line (raw :: rest))
    (below : ∀ part sectionPath number raw taken left,
      motive part sectionPath (number + 1 + taken.length) left →
      motive part sectionPath number (raw :: (taken ++ left)))
    (header : ∀ part sectionPath number raw name rest,
      motive part (KeyPath.ofHeader name) (number + 1) rest →
      motive part sectionPath number (raw :: rest))
    (defaultsHeader : ∀ part sectionPath number raw rest,
      motive .defaults sectionPath (number + 1) rest →
      motive part sectionPath number (raw :: rest))
    {part : Part} {sectionPath : List String} {number : Nat} {lines : List (List Char)}
    (h : d ∈ definitions part sectionPath number lines) :
    motive part sectionPath number lines := by
  induction lines using lines_induction generalizing part sectionPath number with
  | nil =>
    rw [definitions] at h
    exact absurd h List.not_mem_nil
  | cons raw rest ih =>
    rw [definitions] at h
    split at h
    · exact below _ _ _ raw [] rest (ih rest (Nat.le_refl _) h)
    · exact header _ _ _ raw _ rest (ih rest (Nat.le_refl _) h)
    · exact defaultsHeader _ _ _ raw rest (ih rest (Nat.le_refl _) h)
    · exact absurd h List.not_mem_nil
    next key initial hstates =>
      rcases List.mem_cons.mp h with rfl | hlater
      · exact here raw rest initial hstates
      · rw [← rowsBelow_append initial rest]
        exact below _ _ _ raw _ _ (ih _ (length_captureBlock_le initial rest) hlater)

theorem le_line_of_mem_definitions {part : Part} {sectionPath : List String} {number : Nat}
    {lines : List (List Char)} {d : Definition}
    (h : d ∈ definitions part sectionPath number lines) : number ≤ d.line := by
  refine mem_definitions_induction ?here ?below ?header ?defaultsHeader h
  case here =>
    intro _ _ _ _
    exact Nat.le_refl _
  case below =>
    intro _ _ _ _ _ _ hline
    omega
  case header =>
    intro _ _ _ _ _ _ hline
    exact Nat.le_of_succ_le hline
  case defaultsHeader =>
    intro _ _ _ _ _ hline
    exact Nat.le_of_succ_le hline

/-- What holds between a definition and all that can stand below it holds between any two
    definitions of a document. -/
theorem pairwise_definitions {r : Definition → Definition → Prop}
    (h : ∀ d lines, ∀ later ∈ definitions d.part d.sectionPath (d.line + 1 + d.rows.length) lines,
      r d later)
    (part : Part) (sectionPath : List String) (number : Nat) (lines : List (List Char)) :
    (definitions part sectionPath number lines).Pairwise r := by
  induction lines using lines_induction generalizing part sectionPath number with
  | nil =>
    rw [definitions]
    exact List.Pairwise.nil
  | cons raw rest ih =>
    rw [definitions]
    split
    · exact ih rest (Nat.le_refl _) _ _ _
    · exact ih rest (Nat.le_refl _) _ _ _
    · exact ih rest (Nat.le_refl _) _ _ _
    · exact List.Pairwise.nil
    next key initial _ =>
      refine List.pairwise_cons.mpr ⟨?_, ih _ (length_captureBlock_le initial rest) _ _ _⟩
      intro later hlater
      exact h _ _ later hlater

/-- Definitions are listed in the order of their lines. -/
theorem pairwise_line_definitions (part : Part) (sectionPath : List String) (number : Nat)
    (lines : List (List Char)) :
    (definitions part sectionPath number lines).Pairwise (·.line < ·.line) := by
  refine pairwise_definitions ?_ part sectionPath number lines
  intro d rest later hlater
  have := le_line_of_mem_definitions hlater
  omega

/-- The line of a definition is the one that states it. -/
theorem exists_of_mem_definitions {part : Part} {sectionPath : List String} {number : Nat}
    {lines : List (List Char)} {d : Definition}
    (h : d ∈ definitions part sectionPath number lines) :
    ∃ front raw back initial, lines = front ++ raw :: back ∧ d.line = number + front.length
      ∧ Line.ofText d.part (trim raw) = .statement d.key initial := by
  refine mem_definitions_induction ?here ?below ?header ?defaultsHeader h
  case here =>
    intro raw rest initial hstates
    exact ⟨[], raw, rest, initial, rfl, rfl, hstates⟩
  case below =>
    rintro _ _ number raw taken left ⟨front, line, back, initial, rfl, hline, hstates⟩
    refine ⟨raw :: (taken ++ front), line, back, initial, by simp, ?_, hstates⟩
    simp only [List.length_cons, List.length_append]
    omega
  case header =>
    rintro _ _ number raw _ rest ⟨front, line, back, initial, rfl, hline, hstates⟩
    refine ⟨raw :: front, line, back, initial, rfl, ?_, hstates⟩
    rw [hline, List.length_cons, Nat.add_right_comm, Nat.add_assoc]
  case defaultsHeader =>
    rintro _ _ number raw rest ⟨front, line, back, initial, rfl, hline, hstates⟩
    refine ⟨raw :: front, line, back, initial, rfl, ?_, hstates⟩
    rw [hline, List.length_cons, Nat.add_right_comm, Nat.add_assoc]

/-! ## Reading definition by definition -/

variable {env : Environment}

theorem sectionPath_put {part : Part} {b next : Building} {key : String} {text : List Char}
    (h : part.put env b key text = .ok next) : next.sectionPath = b.sectionPath := by
  cases part with
  | body =>
    obtain ⟨v, tree, -, -, rfl⟩ := exists_of_assign h
    rfl
  | defaults =>
    obtain ⟨defaults, rfl⟩ := exists_of_recordDefault h
    rfl

/-- Induction over lines that are read to their end: one case for each line that reading comes
    to. -/
@[elab_as_elim]
theorem readPart_induction {final : Building} {motive : Part → Building → List (List Char) → Prop}
    (nil : ∀ part, motive part final [])
    (silent : ∀ part b raw rest, Line.ofText part (trim raw) = .silent → motive part b rest →
      motive part b (raw :: rest))
    (header : ∀ part b raw rest name, Line.ofText part (trim raw) = .header name →
      motive part (b.enter name) rest → motive part b (raw :: rest))
    (defaultsHeader : ∀ part b raw rest, Line.ofText part (trim raw) = .defaultsHeader →
      motive .defaults b rest → motive part b (raw :: rest))
    (statement : ∀ part b raw rest key initial next,
      Line.ofText part (trim raw) = .statement key initial →
      part.put env b key (captureBlock initial rest).1 = .ok next →
      motive part next (captureBlock initial rest).2 → motive part b (raw :: rest))
    {part : Part} {b : Building} {lines : List (List Char)}
    (h : readPart env part b lines = .done final) : motive part b lines := by
  induction lines using lines_induction generalizing part b with
  | nil =>
    rw [readPart_nil] at h
    obtain rfl := Outcome.done.inj h
    exact nil part
  | cons raw rest ih =>
    rw [readPart_cons] at h
    cases hline : Line.ofText part (trim raw) with
    | silent =>
      rw [hline] at h
      exact silent part b raw rest hline (ih rest (Nat.le_refl _) h)
    | header name =>
      rw [hline] at h
      exact header part b raw rest name hline (ih rest (Nat.le_refl _) h)
    | defaultsHeader =>
      rw [hline] at h
      exact defaultsHeader part b raw rest hline (ih rest (Nat.le_refl _) h)
    | malformed cause =>
      rw [hline] at h
      exact absurd h (by simp)
    | statement key initial =>
      simp only [hline] at h
      cases hput : part.put env b key (captureBlock initial rest).1 with
      | error f => simp [hput] at h
      | ok next =>
        rw [hput] at h
        exact statement part b raw rest key initial next hline hput
          (ih _ (length_captureBlock_le initial rest) h)

/-- What lines give that are read to their end, their definitions give one after another. -/
theorem foldlM_definitions {part : Part} {b final : Building} {lines : List (List Char)}
    (h : readPart env part b lines = .done final) (number : Nat) (sectionPath : List String) :
    ((definitions part b.sectionPath number lines).foldlM (Definition.run env)
        { b with sectionPath := sectionPath }).map (fun b => (b.tree, b.defaults))
      = .ok (final.tree, final.defaults) := by
  revert number sectionPath
  refine readPart_induction ?nil ?silent ?header ?defaultsHeader ?statement h
  case nil =>
    intro part number sectionPath
    rw [definitions]
    rfl
  case silent =>
    intro part b raw rest hline ih number sectionPath
    rw [definitions, hline]
    exact ih _ _
  case header =>
    intro part b raw rest name hline ih number sectionPath
    rw [definitions, hline]
    exact ih _ _
  case defaultsHeader =>
    intro part b raw rest hline ih number sectionPath
    rw [definitions, hline]
    exact ih _ _
  case statement =>
    intro part b raw rest key initial next hline hput ih number sectionPath
    rw [definitions, hline]
    simp only [List.foldlM_cons, Definition.run, hput, bind, Except.bind]
    rw [← sectionPath_put hput]
    exact ih _ next.sectionPath

end Document

end ConfigLang
