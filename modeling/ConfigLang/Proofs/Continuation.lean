import ConfigLang.Proofs.ReadingLines
import ConfigLang.Proofs.SharedDocument

set_option autoImplicit false

/-! # Documents that go on

Lines are read one after another, and the only look ahead is that of a value that goes on below its
line. Where every such value is closed within the first lines of a document, reading the document is
reading its first lines and then going on with the others (`readLines_continued`): neither the
values of the first lines nor the faults in them depend on what follows. -/

namespace ConfigLang.Document

open Text

/-! ## Values closed within their lines -/

/-- Whether a value that begins with `initial` is closed within the lines below it. -/
def closesBlock (initial : List Char) (rest : List (List Char)) : Bool :=
  match initial.head? with
  | some '\x7b' => balance '\x7b' '\x7d' (captureBlock initial rest).1 ≤ 0
  | some '[' => balance '[' ']' (captureBlock initial rest).1 ≤ 0
  | _ => true

/-- A block that is closed within its lines takes nothing from the lines behind them. -/
theorem gatherBlock_append {opened closed : Char} {text : List Char} {lines : List (List Char)}
    (h : balance opened closed (gatherBlock opened closed text lines).1 ≤ 0)
    (later : List (List Char)) :
    gatherBlock opened closed text (lines ++ later)
      = ((gatherBlock opened closed text lines).1,
        (gatherBlock opened closed text lines).2 ++ later) := by
  induction lines generalizing text with
  | nil => exact gatherBlock_of_balance h later
  | cons line rest ih =>
    rw [gatherBlock] at h
    rw [List.cons_append, gatherBlock, gatherBlock]
    split at h
    next hclosed => simp only [hclosed, if_true, List.cons_append]
    next hopen =>
      simp only [hopen, if_false]
      split at h
      next hblank =>
        simp only [hblank, if_true]
        exact ih h
      next hline =>
        simp only [hline]
        exact ih h

theorem captureBlock_append {initial : List Char} {rest : List (List Char)}
    (h : closesBlock initial rest = true) (later : List (List Char)) :
    captureBlock initial (rest ++ later)
      = ((captureBlock initial rest).1, (captureBlock initial rest).2 ++ later) := by
  unfold closesBlock at h
  split at h
  next hhead =>
    simp only [captureBlock, hhead, decide_eq_true_eq] at h ⊢
    exact gatherBlock_append h later
  next hhead =>
    simp only [captureBlock, hhead, decide_eq_true_eq] at h ⊢
    exact gatherBlock_append h later
  next hbrace hbracket =>
    unfold captureBlock
    split
    next hhead => exact absurd hhead hbrace
    next hhead => exact absurd hhead hbracket
    next => rfl

/-! ## Lines that end by themselves -/

/-- Whether reading lines comes neither upon the header of the defaults nor upon a value that is
    still open where the lines end. -/
def selfContained (env : Environment) (b : Building) (lines : List (List Char)) : Bool :=
  match lines with
  | [] => true
  | raw :: rest =>
    match Line.ofText .body (trim raw) with
    | .silent => selfContained env b rest
    | .header name => selfContained env (b.enter name) rest
    | .defaultsHeader => false
    | .malformed _ => true
    | .statement key initial =>
      closesBlock initial rest
        && match b.assign env key (captureBlock initial rest).1 with
          | .error _ => true
          | .ok b => selfContained env b (captureBlock initial rest).2
termination_by lines.length
decreasing_by
  · simp
  · simp
  · have := length_captureBlock_le initial rest
    simp only [List.length_cons]
    omega

variable {env : Environment}

/-- Induction over lines that end by themselves: one case for each line that reading comes to, and
    of a statement one for a value that is written and one for a fault. -/
@[elab_as_elim]
theorem selfContained_induction {motive : Building → List (List Char) → Prop}
    (nil : ∀ b, motive b [])
    (silent : ∀ b raw rest, Line.ofText .body (trim raw) = .silent → motive b rest →
      motive b (raw :: rest))
    (header : ∀ b raw rest name, Line.ofText .body (trim raw) = .header name →
      motive (b.enter name) rest → motive b (raw :: rest))
    (malformed : ∀ b raw rest cause, Line.ofText .body (trim raw) = .malformed cause →
      motive b (raw :: rest))
    (fault : ∀ b raw rest key initial f, Line.ofText .body (trim raw) = .statement key initial →
      closesBlock initial rest = true → b.assign env key (captureBlock initial rest).1 = .error f →
      motive b (raw :: rest))
    (statement : ∀ b raw rest key initial next,
      Line.ofText .body (trim raw) = .statement key initial → closesBlock initial rest = true →
      b.assign env key (captureBlock initial rest).1 = .ok next →
      motive next (captureBlock initial rest).2 → motive b (raw :: rest))
    {b : Building} {lines : List (List Char)} (h : selfContained env b lines = true) :
    motive b lines := by
  induction lines using lines_induction generalizing b with
  | nil => exact nil b
  | cons raw rest ih =>
    rw [selfContained] at h
    cases hline : Line.ofText .body (trim raw) with
    | silent =>
      rw [hline] at h
      exact silent b raw rest hline (ih rest (Nat.le_refl _) h)
    | header name =>
      rw [hline] at h
      exact header b raw rest name hline (ih rest (Nat.le_refl _) h)
    | defaultsHeader =>
      rw [hline] at h
      exact absurd h Bool.false_ne_true
    | malformed cause => exact malformed b raw rest cause hline
    | statement key initial =>
      simp only [hline, Bool.and_eq_true] at h
      cases hassign : b.assign env key (captureBlock initial rest).1 with
      | error f => exact fault b raw rest key initial f hline h.1 hassign
      | ok next =>
        rw [hassign] at h
        exact statement b raw rest key initial next hline h.1 hassign
          (ih _ (length_captureBlock_le initial rest) h.2)

theorem put_body (b : Building) (key : String) (text : List Char) :
    Part.body.put env b key text = b.assign env key text :=
  rfl

/-- Reading goes on behind lines that end by themselves. -/
theorem readPart_append {b : Building} {lines : List (List Char)}
    (h : selfContained env b lines = true) (later : List (List Char)) :
    readPart env .body b (lines ++ later)
      = (readPart env .body b lines).andThen id fun b => readPart env .body b later := by
  refine selfContained_induction ?nil ?silent ?header ?malformed ?fault ?statement h
  case nil =>
    intro b
    rw [readPart_nil]
    rfl
  case silent =>
    intro b raw rest hline ih
    rw [List.cons_append, readPart_cons, readPart_cons, hline]
    exact ih
  case header =>
    intro b raw rest name hline ih
    rw [List.cons_append, readPart_cons, readPart_cons, hline]
    exact ih
  case malformed =>
    intro b raw rest cause hline
    rw [List.cons_append, readPart_cons, readPart_cons, hline]
    rfl
  case fault =>
    intro b raw rest key initial f hline hcloses hassign
    rw [List.cons_append, readPart_cons, readPart_cons, hline]
    simp only [captureBlock_append hcloses, put_body, hassign]
    rfl
  case statement =>
    intro b raw rest key initial next hline hcloses hassign ih
    rw [List.cons_append, readPart_cons, readPart_cons, hline]
    simp only [captureBlock_append hcloses, put_body, hassign]
    exact ih

/-! ## Values of the first lines -/

/-- The values that reading a line resolves, and those of the lines behind it. -/
theorem valueTexts_cons (b : Building) (raw : List Char) (rest : List (List Char)) :
    valueTexts env b (raw :: rest)
      = match Line.ofText .body (trim raw) with
        | .silent => valueTexts env b rest
        | .header name => valueTexts env (b.enter name) rest
        | .defaultsHeader => defaultTexts env b rest
        | .malformed _ => []
        | .statement key initial =>
          (b.scope env, (captureBlock initial rest).1)
            :: match b.assign env key (captureBlock initial rest).1 with
              | .error _ => []
              | .ok b => valueTexts env b (captureBlock initial rest).2 :=
  partTexts_cons env .body b raw rest

/-- The values of lines that end by themselves are resolved from the same texts, and can refer to
    the same, whatever follows. -/
theorem valueTexts_prefix {b : Building} {lines : List (List Char)}
    (h : selfContained env b lines = true) (later : List (List Char)) :
    valueTexts env b lines <+: valueTexts env b (lines ++ later) := by
  refine selfContained_induction ?nil ?silent ?header ?malformed ?fault ?statement h
  case nil =>
    intro b
    rw [valueTexts]
    exact List.nil_prefix
  case silent =>
    intro b raw rest hline ih
    rw [List.cons_append, valueTexts_cons, valueTexts_cons, hline]
    exact ih
  case header =>
    intro b raw rest name hline ih
    rw [List.cons_append, valueTexts_cons, valueTexts_cons, hline]
    exact ih
  case malformed =>
    intro b raw rest cause hline
    rw [List.cons_append, valueTexts_cons, valueTexts_cons, hline]
  case fault =>
    intro b raw rest key initial f hline hcloses hassign
    rw [List.cons_append, valueTexts_cons, valueTexts_cons, hline]
    simp only [captureBlock_append hcloses, hassign, List.prefix_refl]
  case statement =>
    intro b raw rest key initial next hline hcloses hassign ih
    rw [List.cons_append, valueTexts_cons, valueTexts_cons, hline]
    simp only [captureBlock_append hcloses, hassign, List.cons_prefix_cons, true_and]
    exact ih

/-! ## Reading on -/

/-- Reading lines that end by themselves and then later ones is reading both at once, faults
    included, and the values of the first lines do not depend on the later ones. -/
theorem readLines_continued {b : Building} {lines : List (List Char)}
    (h : selfContained env b lines = true) (later : List (List Char)) :
    readLines env b (lines ++ later)
        = (readLines env b lines).andThen id (fun b => readLines env b later)
      ∧ valueTexts env b lines <+: valueTexts env b (lines ++ later) :=
  ⟨readPart_append h later, valueTexts_prefix h later⟩

/-- A section with a value of three lines, and a value that refers to it. -/
def rowLines : List (List Char) :=
  ["[server]", "ports = [", "80,", "", "443 ]", "first = ports"].map String.toList

theorem readLines_rowLines :
    selfContained {} {} rowLines = true
      ∧ readLines {} {} (rowLines ++ ["ports = 8080".toList])
        = (readLines {} {} rowLines).andThen id (fun b => readLines {} b ["ports = 8080".toList])
      ∧ valueTexts {} {} rowLines <+: valueTexts {} {} (rowLines ++ ["ports = 8080".toList]) := by
  have h : selfContained {} {} rowLines = true := by decide +kernel
  exact ⟨h, readLines_continued h _⟩

end ConfigLang.Document
