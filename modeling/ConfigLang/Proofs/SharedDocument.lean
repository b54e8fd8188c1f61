import ConfigLang.Proofs.ReadingLines
import ConfigLang.Proofs.SharedValue
import ConfigLang.Session

set_option autoImplicit false

/-! # Documents and the variables that they name

What a document means depends on the variables that it names and on no others, as long as the strings
that its expressions take up stay apart from their groups. Main statement: two environments that agree
on the names in a document give the same tree or the same fault (`parseText_congr`). A string that
holds parentheses itself may bring in further names, so the condition cannot be left out. -/

namespace ConfigLang

open Text

namespace Document

variable {env₁ env₂ : Environment}

/-! ## Statements -/

/-- The text of the value of a statement is shared with the lines behind it. -/
theorem sharedLines_captured {raw initial : List Char} {key : String} {rest : List (List Char)}
    (h : SharedLines env₁ env₂ (raw :: rest)) (hsplit : splitStatement (trim raw) = .ok (key, initial)) :
    SharedLines env₁ env₂ ((captureBlock initial rest).1 :: (captureBlock initial rest).2) := by
  unfold splitStatement at hsplit
  split at hsplit
  next => exact absurd hsplit (by simp)
  next before value hkey =>
    split at hsplit
    next => exact absurd hsplit (by simp)
    next =>
      obtain ⟨-, rfl⟩ := Prod.mk.inj (Except.ok.inj hsplit)
      rw [Scan.keyValue?, Option.map_eq_some_iff] at hkey
      obtain ⟨⟨key', value'⟩, hcut, hvalue⟩ := hkey
      obtain ⟨-, rfl⟩ := Prod.mk.inj hvalue
      obtain ⟨c, hline⟩ := Scan.cutWhen?_eq_some hcut
      have hends : trim raw = (key' ++ [c]) ++ value' ++ [] := by simp [hline]
      exact (h.trim.cut hends (by simp)).trim.captureBlock

/-! ## Lines -/

/-- The texts of the values that reading the lines below the header of the defaults resolves, each
    with what it can refer to. -/
def defaultTexts (env : Environment) (b : Building) (lines : List (List Char)) :
    List (Scope × List Char) :=
  match lines with
  | [] => []
  | raw :: rest =>
    let line := trim raw
    if (header? line).isSome then []
    else if line.contains '=' then
      match splitStatement line with
      | .error _ => []
      | .ok (path, initial) =>
        (b.scope env, (captureBlock initial rest).1)
          :: match b.recordDefault env path (captureBlock initial rest).1 with
            | .error _ => []
            | .ok b => defaultTexts env b (captureBlock initial rest).2
    else defaultTexts env b rest
termination_by lines.length
decreasing_by
  · have := length_captureBlock_le initial rest
    simp only [List.length_cons]
    omega
  · simp

/-- The texts of the values that reading the lines of a document resolves. -/
def valueTexts (env : Environment) (b : Building) (lines : List (List Char)) :
    List (Scope × List Char) :=
  match lines with
  | [] => []
  | raw :: rest =>
    let line := trim raw
    if line.isEmpty then valueTexts env b rest
    else
      match header? line with
      | some name =>
        if isDefaultsName name then defaultTexts env b rest else valueTexts env (b.enter name) rest
      | none =>
        match statement? line with
        | .error _ => []
        | .ok none => valueTexts env b rest
        | .ok (some (key, initial)) =>
          (b.scope env, (captureBlock initial rest).1)
            :: match b.assign env key (captureBlock initial rest).1 with
              | .error _ => []
              | .ok b => valueTexts env b (captureBlock initial rest).2
termination_by lines.length
decreasing_by
  · simp
  · simp
  · simp
  · have := length_captureBlock_le initial rest
    simp only [List.length_cons]
    omega

/-- The texts of the values that reading the lines of a part resolves. -/
def partTexts (env : Environment) (part : Part) (b : Building) (lines : List (List Char)) :
    List (Scope × List Char) :=
  match part with
  | .body => valueTexts env b lines
  | .defaults => defaultTexts env b lines

/-- The values that reading a line resolves, and those of the lines behind it. -/
theorem partTexts_cons (env : Environment) (part : Part) (b : Building) (raw : List Char)
    (rest : List (List Char)) :
    partTexts env part b (raw :: rest)
      = match Line.ofText part (trim raw) with
        | .silent => partTexts env part b rest
        | .header name => partTexts env part (b.enter name) rest
        | .defaultsHeader => partTexts env .defaults b rest
        | .malformed _ => []
        | .statement key initial =>
          (b.scope env, (captureBlock initial rest).1)
            :: match part.put env b key (captureBlock initial rest).1 with
              | .error _ => []
              | .ok b => partTexts env part b (captureBlock initial rest).2 := by
  cases part with
  | body =>
    rw [partTexts, valueTexts, Line.ofText, statement?]
    cases hempty : (trim raw).isEmpty with
    | true => rfl
    | false =>
      cases header? (trim raw) with
      | some name => cases hdefaults : isDefaultsName name <;> simp [hdefaults, partTexts]
      | none =>
        cases hequals : (trim raw).contains '=' with
        | true => cases splitStatement (trim raw) <;> rfl
        | false => cases hfragment : (trim raw).any isFragmentChar <;> rfl
  | defaults =>
    rw [partTexts, defaultTexts, Line.ofText]
    cases header? (trim raw) with
    | some name => rfl
    | none =>
      cases hequals : (trim raw).contains '=' with
      | true => cases splitStatement (trim raw) <;> rfl
      | false => rfl

theorem put_congr (part : Part) {b : Building} {text : List Char} (key : String)
    (h : Shared env₁ env₂ text) (hapart : (b.scope env₁).groupsApart text = true) :
    part.put env₁ b key text = part.put env₂ b key text := by
  have hresolve : (b.scope env₁).resolve text = (b.scope env₂).resolve text :=
    Scope.resolve_congr h hapart
  cases part with
  | body => rw [Part.put, Part.put, Building.assign, Building.assign, hresolve]
  | defaults => rw [Part.put, Part.put, Building.recordDefault, Building.recordDefault, hresolve]

/-- Both runs put the same values and read on from the same building. -/
theorem readPart_congr {part : Part} {b : Building} {lines : List (List Char)}
    (h : SharedLines env₁ env₂ lines)
    (hapart : ∀ p ∈ partTexts env₁ part b lines, p.1.groupsApart p.2 = true) :
    readPart env₁ part b lines = readPart env₂ part b lines := by
  induction lines using lines_induction generalizing part b with
  | nil => rw [readPart_nil, readPart_nil]
  | cons raw rest ih =>
    rw [partTexts_cons] at hapart
    rw [readPart_cons, readPart_cons]
    cases hline : Line.ofText part (trim raw) with
    | silent =>
      rw [hline] at hapart
      exact ih rest (Nat.le_refl _) h.2.2 hapart
    | header name =>
      rw [hline] at hapart
      exact ih rest (Nat.le_refl _) h.2.2 hapart
    | defaultsHeader =>
      rw [hline] at hapart
      exact ih rest (Nat.le_refl _) h.2.2 hapart
    | malformed cause => rfl
    | statement key initial =>
      simp only [hline, List.forall_mem_cons] at hapart
      have hcaptured := sharedLines_captured h (splitStatement_of_ofText hline)
      have hcongr := put_congr part key hcaptured.1 hapart.1
      dsimp only
      rw [← hcongr]
      cases hput : part.put env₁ b key (captureBlock initial rest).1 with
      | error f => rfl
      | ok b' =>
        rw [hput] at hapart
        exact ih _ (length_captureBlock_le initial rest) hcaptured.2.2 hapart.2

theorem readLines_congr {b : Building} {lines : List (List Char)}
    (h : SharedLines env₁ env₂ lines)
    (hapart : ∀ p ∈ valueTexts env₁ b lines, p.1.groupsApart p.2 = true) :
    readLines env₁ b lines = readLines env₂ b lines :=
  @readPart_congr env₁ env₂ .body b lines h hapart

/-- Whether groups stay apart from strings in all values of a document. -/
def groupsApart (env : Environment) (lines : List (List Char)) : Bool :=
  (valueTexts env {} lines).all fun p => p.1.groupsApart p.2

end Document

open Document

/-- Two environments that agree on the names in a document without includes and block comments give
    the same tree or the same fault, if the references in it are closed on their lines before any
    group begins and groups stay apart from strings. -/
theorem parseText_congr (store : Files.Store) {env₁ env₂ : Environment} {text : List Char}
    (hinclude : ∀ line ∈ Scan.uncommentedLines text, includeWord.isPrefixOf (trim line) = false)
    (hblocks : Scan.stripBlocks text = text)
    (hcloses : Environment.closesReferences (['\n'].intercalate (Scan.uncommentedLines text)) = true)
    (hagree : ∀ name ∈ Environment.names text,
      env₁.get? (String.ofList name) = env₂.get? (String.ofList name))
    (hapart : groupsApart env₁ ((Scan.uncommentedLines text).map trim) = true) :
    parseText store env₁ text = parseText store env₂ text := by
  have hshared := (sharedLines_document hblocks hcloses hagree).map_trim
  have hread := readLines_congr hshared (List.all_eq_true.mp hapart)
  rw [parseText_of_plain store env₁ hinclude, parseText_of_plain store env₂ hinclude, build, build,
    hread]

/-- What a tree or a fault shows of itself. -/
def shownResult : Except Fault Tree → String
  | .ok tree => tree.toValue.shown
  | .error f => f.message

/-- A variable whose text looks like a reference, and the variable that it seems to name. -/
def referringVariables (held : String) : Environment :=
  ⟨[("A", "$ENV\x7bB\x7d"), ("B", held)]⟩

/-- A string that looks like a reference stays a string when a group brings it into an expression. -/
theorem parseText_referringVariables :
    let text := "x = $ENV\x7bA\x7d\ny = (x) + 1".toList
    parseText {} (referringVariables "1") text = parseText {} (referringVariables "2") text
      ∧ shownResult (parseText {} (referringVariables "1") text)
          = "\x7b\"x\":\"$ENV\x7bB\x7d\",\"y\":\"$ENV\x7bB\x7d1\"\x7d" := by
  have hinclude : ∀ line ∈ Scan.uncommentedLines "x = $ENV\x7bA\x7d\ny = (x) + 1".toList,
      includeWord.isPrefixOf (trim line) = false := by decide +kernel
  refine ⟨?_, ?_⟩
  · exact parseText_congr {} hinclude (by decide +kernel) (by decide +kernel) (by decide +kernel)
      (by decide +kernel)
  · rw [parseText_of_plain {} _ hinclude]
    decide +kernel

/-! ## Documents that depend on other variables -/

/-- Variables whose texts hold parentheses, quotes and references, and three that they lead to. -/
def leadingVariables (held : String) : Environment :=
  ⟨[("P", "([$ENV\x7bB\x7d])"), ("Q", ") + [$ENV\x7bB\x7d] + "), ("S", "\\"),
    ("T", " + [$ENV\x7bB\x7d] + "), ("U", "([$ENV\x7bB\x7d])\""),
    ("A B", held), ("A\x7b", held), ("B", held)]⟩

/-- Documents that depend on a variable which they do not name. -/
def dependentDocuments : List String := [
  -- a line comment ends inside a reference, so the next line goes on with its name
  "k = [ $ENV\x7bA // \x7d\nB\x7d ]",
  -- a group stands in a reference that is not closed, and its text closes it
  "x = \x7b\x7d\ny = \"\" + [$ENV\x7bA(x)]",
  -- both parentheses of a group stand inside a string
  "x = $ENV\x7bP\x7d\ny = (x) + 1",
  -- a group ends inside a string
  "x = $ENV\x7bQ\x7d\ny = (1 + (x))",
  -- a backslash at the end of a string leaves its quote open
  "x = $ENV\x7bS\x7d\nz = $ENV\x7bT\x7d\ny = (x) + (z)",
  -- in an array such a string shows the next one, and this one opens and closes a quote of its own
  "x = [$ENV\x7bS\x7d, $ENV\x7bU\x7d]\ny = (x) + 1"]

/-- A document that names no variable on which two environments differ, with every name on one line
    and free of groups, and yet depends on the environment. -/
structure Dependent (env₁ env₂ : Environment) (text : List Char) : Prop where
  no_include : ∀ line ∈ Scan.uncommentedLines text, includeWord.isPrefixOf (trim line) = false
  no_block : Scan.stripBlocks text = text
  on_line : ∀ name ∈ Environment.names text, '(' ∉ name ∧ '\n' ∉ name
  agrees : ∀ name ∈ Environment.names text,
    env₁.get? (String.ofList name) = env₂.get? (String.ofList name)
  differs : parseText {} env₁ text ≠ parseText {} env₂ text

/-- Without the conditions on line comments, on references that are not closed, and on each way in
    which strings and groups can meet, agreeing on the names in a document is not enough. -/
theorem dependent_dependentDocuments :
    (dependentDocuments.map String.toList).Forall
      (Dependent (leadingVariables "1") (leadingVariables "2")) := by
  have hinclude : ∀ text ∈ dependentDocuments.map String.toList,
      ∀ line ∈ Scan.uncommentedLines text, includeWord.isPrefixOf (trim line) = false := by
    decide +kernel
  have hnames : ∀ text ∈ dependentDocuments.map String.toList, Scan.stripBlocks text = text
      ∧ (∀ name ∈ Environment.names text, '(' ∉ name ∧ '\n' ∉ name)
      ∧ ∀ name ∈ Environment.names text, (leadingVariables "1").get? (String.ofList name)
          = (leadingVariables "2").get? (String.ofList name) := by
    decide +kernel
  have hshown : ∀ text ∈ dependentDocuments.map String.toList,
      shownResult ((build (leadingVariables "1") ((Scan.uncommentedLines text).map trim)).result.map
          (·.tree))
        ≠ shownResult ((build (leadingVariables "2") ((Scan.uncommentedLines text).map trim)).result.map
          (·.tree)) := by
    decide +kernel
  rw [List.forall_iff_forall_mem]
  intro text htext
  obtain ⟨hblocks, honline, hagree⟩ := hnames text htext
  refine ⟨hinclude text htext, hblocks, honline, hagree, fun hsame => ?_⟩
  have hequal := congrArg shownResult hsame
  rw [parseText_of_plain {} _ (hinclude text htext), parseText_of_plain {} _ (hinclude text htext)]
    at hequal
  exact hshown text htext hequal

end ConfigLang
