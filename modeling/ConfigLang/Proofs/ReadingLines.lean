import ConfigLang.Document.Lines

set_option autoImplicit false

/-! # Reading line by line

What a line says depends on its own text and on the part of the document that it stands in: the
body, or the defaults behind their header. What reading it does is said here once for both parts
(`readPart_cons`), so that a statement about a whole document takes one case for each kind of
line. -/

namespace ConfigLang.Document

open Text

/-- The two parts of a document. -/
inductive Part where
  | body
  | defaults
  deriving DecidableEq, Repr

/-- What a line says. -/
inductive Line where
  /-- A blank line or a left-over, of which nothing comes. -/
  | silent
  | header (name : List Char)
  | defaultsHeader
  | malformed (cause : Malformed)
  /-- A key or path, and the text with which its value begins. -/
  | statement (key : String) (initial : List Char)

namespace Line

/-- A statement, or what is wrong with it. -/
def ofSplit : Except Malformed (String × List Char) → Line
  | .error cause => .malformed cause
  | .ok (key, initial) => .statement key initial

/-- What a trimmed line says in a part of the document. -/
def ofText (part : Part) (line : List Char) : Line :=
  match part with
  | .body =>
    if line.isEmpty then .silent
    else
      match header? line with
      | some name => if isDefaultsName name then .defaultsHeader else .header name
      | none =>
        if line.contains '=' then ofSplit (splitStatement line)
        else if line.any isFragmentChar then .silent
        else .malformed (.noEquals (String.ofList line))
  | .defaults =>
    if (header? line).isSome then .malformed (.headerAfterDefaults (String.ofList line))
    else if line.contains '=' then ofSplit (splitStatement line)
    else .silent

theorem ofText_nil (part : Part) : ofText part [] = .silent := by
  cases part <;> rfl

end Line

/-- A line that says a statement is split into its key and the text that its value begins with. -/
theorem splitStatement_of_ofText {part : Part} {line initial : List Char} {key : String}
    (h : Line.ofText part line = .statement key initial) :
    splitStatement line = .ok (key, initial) := by
  have hsplit : Line.ofSplit (splitStatement line) = .statement key initial := by
    cases part with
    | body =>
      unfold Line.ofText at h
      dsimp only at h
      split at h
      · exact absurd h (by simp)
      · split at h
        · split at h <;> exact absurd h (by simp)
        · split at h
          · exact h
          · split at h <;> exact absurd h (by simp)
    | defaults =>
      unfold Line.ofText at h
      dsimp only at h
      split at h
      · exact absurd h (by simp)
      · split at h
        · exact h
        · exact absurd h (by simp)
  unfold Line.ofSplit at hsplit
  split at hsplit
  next => exact absurd hsplit (by simp)
  next heq =>
    obtain ⟨rfl, rfl⟩ := Line.statement.inj hsplit
    exact heq

section

variable {env : Environment} {b b' : Building} {text : List Char}

/-- What a statement of the body does: its value is resolved and then written. -/
theorem exists_of_assign {key : String} (h : b.assign env key text = .ok b') :
    ∃ v tree, (b.scope env).resolve text = .ok v ∧ b.tree.write b.sectionPath key v = .ok tree
      ∧ b' = { b with tree := tree } := by
  obtain ⟨v, hresolve, hassign⟩ := exists_of_bind h
  obtain ⟨tree, hwrite, hdone⟩ := exists_of_bind hassign
  exact ⟨v, tree, hresolve, hwrite, (Except.ok.inj hdone).symm⟩

theorem exists_of_recordDefault {path : String} (h : b.recordDefault env path text = .ok b') :
    ∃ defaults, b' = { b with defaults := defaults } := by
  obtain ⟨v, -, hdone⟩ := exists_of_bind h
  exact ⟨_, (Except.ok.inj hdone).symm⟩

end

variable (env : Environment)

/-- Put the value of a statement where its part of the document keeps it. -/
def Part.put (part : Part) (b : Building) (key : String) (text : List Char) :
    Except Fault Building :=
  match part with
  | .body => b.assign env key text
  | .defaults => b.recordDefault env key text

/-- Read the lines of a part. -/
def readPart (part : Part) (b : Building) (lines : List (List Char)) : Outcome Building :=
  match part with
  | .body => readLines env b lines
  | .defaults => readDefaults env b lines

theorem readPart_nil (part : Part) (b : Building) : readPart env part b [] = .done b := by
  cases part with
  | body => exact readLines.eq_1 env b
  | defaults => exact readDefaults.eq_1 env b

/-- What reading a line does. -/
theorem readPart_cons (part : Part) (b : Building) (raw : List Char) (rest : List (List Char)) :
    readPart env part b (raw :: rest)
      = match Line.ofText part (trim raw) with
        | .silent => readPart env part b rest
        | .header name => readPart env part (b.enter name) rest
        | .defaultsHeader => readPart env .defaults b rest
        | .malformed cause => .stopped b (.malformed cause)
        | .statement key initial =>
          match part.put env b key (captureBlock initial rest).1 with
          | .error f => .stopped b f
          | .ok b => readPart env part b (captureBlock initial rest).2 := by
  cases part with
  | body =>
    rw [readPart, readLines, Line.ofText, statement?]
    cases hempty : (trim raw).isEmpty with
    | true => rfl
    | false =>
      cases header? (trim raw) with
      | some name => cases hdefaults : isDefaultsName name <;> simp [hdefaults, readPart]
      | none =>
        cases hequals : (trim raw).contains '=' with
        | true => cases splitStatement (trim raw) <;> rfl
        | false => cases hfragment : (trim raw).any isFragmentChar <;> rfl
  | defaults =>
    rw [readPart, readDefaults, Line.ofText]
    cases header? (trim raw) with
    | some name => rfl
    | none =>
      cases hequals : (trim raw).contains '=' with
      | true => cases splitStatement (trim raw) <;> rfl
      | false => rfl

/-- Induction for reading: behind a line there may be any of the lines left, since a value takes as
    many of them as it goes on for. -/
theorem lines_induction {motive : List (List Char) → Prop} (nil : motive [])
    (cons : ∀ raw rest, (∀ lines, lines.length ≤ rest.length → motive lines) →
      motive (raw :: rest))
    (lines : List (List Char)) : motive lines := by
  match lines with
  | [] => exact nil
  | raw :: rest => exact cons raw rest fun left hleft => lines_induction nil cons left
termination_by lines.length
decreasing_by exact Nat.lt_succ_of_le hleft

end ConfigLang.Document
