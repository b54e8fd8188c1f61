import ConfigLang.Config.Basic
import ConfigLang.Proofs.IncludeChains
import ConfigLang.Proofs.ReadingLines
import ConfigLang.Proofs.ResolvingFaults
import ConfigLang.Proofs.TreeWriting

set_option autoImplicit false

/-! # Faults of operations

Which codes the faults of each operation have, from the writing of a value to the reading of a typed
one. Every code has the hundreds of the kind that the fault is reported as, also behind the line of
the document that a typed reader adds, and a fault of a file comes from a line that is to include one
(`Call.report_of_fault?`). -/

namespace ConfigLang

/-! ## Trees -/

namespace Tree

theorem failsWith_setPath (t : Tree) (path : List String) (v : Value) :
    FailsWith [215, 410] (t.setPath path v) := by
  intro f h
  rcases exists_of_setPath_error h with ⟨-, rfl⟩ | ⟨above, held, -, rfl⟩
  · exact List.mem_cons_self
  · exact List.mem_cons_of_mem _ List.mem_cons_self

/-- At a path that is not empty only a value on the way can stop a write. -/
theorem failsWith_setPath_of_ne_nil (t : Tree) {path : List String} (hne : path ≠ []) (v : Value) :
    FailsWith [410] (t.setPath path v) := by
  intro f h
  rcases exists_of_setPath_error h with ⟨hnil, -⟩ | ⟨above, held, -, rfl⟩
  · exact absurd hnil hne
  · exact List.mem_cons_self

theorem failsWith_fill (t : Tree) (path : String) (v : Value) :
    FailsWith [410] (t.fill (KeyPath.ofText path.toList) v) := by
  unfold fill
  split
  · refine t.failsWith_setPath_of_ne_nil ?_ v
    simpa [KeyPath.ofText] using Text.splitOn_ne_nil '.' path.toList
  · exact .ok t

theorem failsWith_fillAll (t : Tree) (entries : List (String × Value)) :
    FailsWith [410] (t.fillAll entries).result := by
  induction entries generalizing t with
  | nil => exact .ok t
  | cons entry rest ih =>
    obtain ⟨path, v⟩ := entry
    rw [fillAll]
    cases hfill : t.fill (KeyPath.ofText path.toList) v with
    | error f => exact .error (t.failsWith_fill path v f hfill)
    | ok filled => exact ih filled

end Tree

/-! ## Lines -/

namespace Document

def statementCodes : List Nat := [201, 202, 203, 204]

/-- The codes of the faults of lines that include no file. -/
def buildingCodes : List Nat := statementCodes ++ 410 :: resolvingCodes

def includeCodes : List Nat := [213, 302, 303, 304, 305]

theorem code_of_splitStatement {line : List Char} {cause : Malformed}
    (h : splitStatement line = .error cause) : cause.code ∈ statementCodes := by
  unfold splitStatement at h
  split at h
  · obtain rfl := Except.error.inj h
    exact List.contains_iff_mem.mp rfl
  · split at h
    · obtain rfl := Except.error.inj h
      exact List.contains_iff_mem.mp rfl
    · exact absurd h (by simp)

theorem Line.code_of_ofSplit {line : List Char} {cause : Malformed}
    (h : ofSplit (splitStatement line) = .malformed cause) : cause.code ∈ statementCodes := by
  cases hsplit : splitStatement line with
  | ok sides => simp [hsplit, ofSplit] at h
  | error other =>
    rw [hsplit, ofSplit, Line.malformed.injEq] at h
    exact h ▸ code_of_splitStatement hsplit

theorem Line.code_of_ofText {part : Part} {line : List Char} {cause : Malformed}
    (h : ofText part line = .malformed cause) : cause.code ∈ statementCodes := by
  cases part with
  | body =>
    unfold ofText at h
    dsimp only at h
    split at h
    · exact absurd h (by simp)
    · split at h
      · split at h <;> exact absurd h (by simp)
      · split at h
        · exact code_of_ofSplit h
        · split at h
          · exact absurd h (by simp)
          · obtain rfl := Line.malformed.inj h
            exact List.contains_iff_mem.mp rfl
  | defaults =>
    unfold ofText at h
    dsimp only at h
    split at h
    · obtain rfl := Line.malformed.inj h
      exact List.contains_iff_mem.mp rfl
    · split at h
      · exact code_of_ofSplit h
      · exact absurd h (by simp)

variable (env : Environment)

theorem failsWith_put (part : Part) (b : Building) (key : String) (text : List Char) :
    FailsWith buildingCodes (part.put env b key text) := by
  have hresolve : FailsWith buildingCodes ((b.scope env).resolve text) :=
    ((b.scope env).failsWith_resolve text).mono (by decide)
  cases part with
  | body =>
    refine hresolve.bind fun v => FailsWith.bind ?_ fun tree => .ok _
    exact (b.tree.failsWith_setPath_of_ne_nil (by simp) v).mono (by decide)
  | defaults => exact hresolve.bind fun v => .ok _

/-- Reading lines fails with one of them, or with the value of a statement. -/
theorem failsWith_readPart (part : Part) (b : Building) (lines : List (List Char)) :
    FailsWith buildingCodes (readPart env part b lines).result := by
  induction lines using lines_induction generalizing part b with
  | nil =>
    rw [readPart_nil]
    exact .ok b
  | cons raw rest ih =>
    rw [readPart_cons]
    split
    · exact ih rest (Nat.le_refl _) part b
    · exact ih rest (Nat.le_refl _) part _
    · exact ih rest (Nat.le_refl _) .defaults b
    next cause hline => exact .error (List.mem_append_left _ (Line.code_of_ofText hline))
    next key initial _ =>
      split
      next f hput => exact .error (failsWith_put env part b key _ f hput)
      next => exact ih _ (length_captureBlock_le initial rest) part _

theorem failsWith_build (lines : List (List Char)) :
    FailsWith buildingCodes (build env lines).result := by
  have hread := failsWith_readPart env .body {} lines
  rw [readPart] at hread
  unfold build
  cases hlines : readLines env {} lines with
  | stopped b f => exact .error (hread f (by rw [hlines]; rfl))
  | done b =>
    have hfill : FailsWith buildingCodes (b.tree.fillAll b.defaults.entries).result :=
      (b.tree.failsWith_fillAll b.defaults.entries).mono (by decide)
    dsimp only
    unfold Building.applyDefaults Tree.applyDefaults
    cases hfilled : b.tree.fillAll b.defaults.entries with
    | done tree => exact .ok _
    | stopped tree f => exact .error (hfill f (by rw [hfilled]; rfl))

theorem failsWith_includeTarget (store : Files.Store) (base path : List Char) :
    FailsWith [305] (includeTarget store base path) := by
  intro f h
  obtain ⟨-, -, rfl⟩ := includeTarget_eq_error_iff.mp h
  exact List.mem_cons_self

/-- Expanding lines fails with a line that is to include a file. -/
theorem failsWith_expandIncludes (store : Files.Store) (base : List Char)
    (stack : List (List String)) (lines : List (List Char)) :
    FailsWith includeCodes (expandIncludes store base stack lines) := by
  fun_induction expandIncludes store base stack lines with
  | case1 => exact .ok []
  | case2 => exact .of_contains rfl
  | case3 base _ _ _ _ _ path _ f htarget =>
    exact .error (List.subset_append_right [213, 302, 303, 304] [305]
      (failsWith_includeTarget store base path f htarget))
  | case4 => exact .of_contains rfl
  | case5 => exact .of_contains rfl
  | case6 => exact .of_contains rfl
  | case7 => exact FailsWith.bind ‹_› fun nested => FailsWith.bind ‹_› fun others => .ok _
  | case8 => exact FailsWith.bind ‹_› fun others => .ok _

end Document

open Document

/-! ## Documents -/

namespace Session

theorem failsWith_parseText (s : Session) (store : Files.Store) (text : List Char) :
    FailsWith (includeCodes ++ buildingCodes) (s.parseText store text).result := by
  refine FailsWith.of_map (fun next : Session => next.building.tree) ?_
  rw [parseText, parseFrom_eq]
  refine ((failsWith_expandIncludes store s.base [] _).mono (List.subset_append_left _ _)).bind
    fun lines => ?_
  exact ((failsWith_build s.env lines).mono (List.subset_append_right _ _)).map _

end Session

/-! ## Configurations -/

/-- The codes of all causes of values of the wrong kind. -/
def mistypedCodes : List Nat :=
  conversionCodes ++ Expr.arithmeticCodes ++ [409, 410, 420, 421, 422, 423, 424, 425, 426]

theorem Mistyped.code_mem (cause : Mistyped) : cause.code ∈ mistypedCodes := by
  cases cause with
  | wanted what v => cases what <;> exact List.contains_iff_mem.mp rfl
  | _ => exact List.contains_iff_mem.mp rfl

namespace Config

variable {α : Type} (c : Config) (path : List Char)

theorem failsWith_value : FailsWith [501] (c.value path) := by
  unfold value
  split
  · exact .ok _
  · exact .of_contains rfl

theorem failsWith_keys : FailsWith [501, 425] (c.keys path) := by
  refine ((c.failsWith_value path).mono (by decide)).bind fun v => ?_
  split
  · exact .ok _
  · exact .of_contains rfl

/-- The line that defines a path adds nothing to the code. -/
theorem code_mistyped (cause : Mistyped) : (c.mistyped path cause).code = cause.code := by
  unfold mistyped
  split <;> rfl

theorem failsWith_readAt (reader : Typed.Reader α) (v : Value) :
    FailsWith mistypedCodes (c.readAt reader path v) := by
  unfold readAt
  split
  · exact .ok _
  · exact .error (by rw [code_mistyped]; exact Mistyped.code_mem _)

theorem failsWith_get (reader : Typed.Reader α) :
    FailsWith (501 :: mistypedCodes) (c.get reader path) :=
  ((c.failsWith_value path).mono (by decide)).bind fun v =>
    (c.failsWith_readAt path reader v).mono (List.subset_cons_self _ _)

theorem failsWith_getOptional (reader : Typed.Reader α) :
    FailsWith mistypedCodes (c.getOptional reader path) := by
  unfold getOptional
  split
  · exact .ok none
  · exact (c.failsWith_readAt path reader _).map some

theorem failsWith_decode (decoder : Decode.Decoder α) :
    FailsWith [501, 426] (c.decode decoder path) := by
  refine ((c.failsWith_value path).mono (by decide)).bind fun v => ?_
  split
  · exact .ok _
  · exact .error (by rw [code_mistyped]; exact List.contains_iff_mem.mp rfl)

end Config

/-! ## All operations -/

/-- A call of an operation that can fail, with all that it is given. -/
inductive Call where
  | parse (s : Session) (store : Files.Store) (text : List Char)
  | resolve (scope : Scope) (text : List Char)
  | setPath (t : Tree) (path : List String) (v : Value)
  | write (t : Tree) (sectionPath : List String) (key : String) (v : Value)
  | applyDefaults (t : Tree) (d : Defaults)
  | targetName (name : List Char)
  | convert (v : Value) (target : Target)
  | value (c : Config) (path : List Char)
  | get {α : Type} (c : Config) (reader : Typed.Reader α) (path : List Char)
  | getOptional {α : Type} (c : Config) (reader : Typed.Reader α) (path : List Char)
  | keys (c : Config) (path : List Char)
  | decode {α : Type} (c : Config) (decoder : Decode.Decoder α) (path : List Char)

/-- The fault that a computation ends with. -/
def faultOf? {α : Type} : Except Fault α → Option Fault
  | .ok _ => none
  | .error f => some f

namespace Call

/-- The fault that a call ends with. -/
def fault? : Call → Option Fault
  | parse s store text => faultOf? (s.parseText store text).result
  | resolve scope text => faultOf? (scope.resolve text)
  | setPath t path v => faultOf? (t.setPath path v)
  | write t sectionPath key v => faultOf? (t.write sectionPath key v)
  | applyDefaults t d => faultOf? (t.applyDefaults d).result
  | targetName name => faultOf? (Target.ofName name)
  | convert v target => faultOf? (v.convert target)
  | value c path => faultOf? (c.value path)
  | get c reader path => faultOf? (c.get reader path)
  | getOptional c reader path => faultOf? (c.getOptional reader path)
  | keys c path => faultOf? (c.keys path)
  | decode c decoder path => faultOf? (c.decode decoder path)

/-- Whether a call is given a document with a line that is to include a file. -/
def includes : Call → Bool
  | parse _ _ text => (Scan.uncommentedLines text).any isInclude
  | _ => false

/-- The codes that the fault of a call can have. -/
def codes : Call → List Nat
  | parse _ _ text =>
    if (Scan.uncommentedLines text).any isInclude then includeCodes ++ buildingCodes
    else buildingCodes
  | resolve _ _ => resolvingCodes
  | setPath _ _ _ => [215, 410]
  | write _ _ _ _ => [410]
  | applyDefaults _ _ => [410]
  | targetName _ => [409]
  | convert _ _ => conversionCodes
  | value _ _ => [501]
  | get _ _ _ => 501 :: mistypedCodes
  | getOptional _ _ _ => mistypedCodes
  | keys _ _ => [501, 425]
  | decode _ _ _ => [501, 426]

theorem faultOf?_map {α β : Type} (f : α → β) (x : Except Fault α) :
    faultOf? (x.map f) = faultOf? x := by
  cases x <;> rfl

/-- Without a line that includes a file there is nothing to expand. -/
theorem fault?_parse_of_plain {s : Session} {store : Files.Store} {text : List Char}
    (h : (parse s store text).includes = false) :
    (parse s store text).fault?
      = faultOf? (build s.env ((Scan.uncommentedLines text).map Text.trim)).result := by
  have hplain : ∀ line ∈ Scan.uncommentedLines text,
      includeWord.isPrefixOf (Text.trim line) = false :=
    fun line hline => Bool.eq_false_iff.mpr (List.any_eq_false.mp h line hline)
  rw [fault?, ← faultOf?_map fun next => next.building.tree, Session.parseText,
    Session.parseFrom_eq, expandIncludes_of_plain store s.base [] hplain]
  exact faultOf?_map _ _

theorem code_mem_of_faultOf? {α : Type} {codes : List Nat} {x : Except Fault α} {f : Fault}
    (hx : FailsWith codes x) (h : faultOf? x = some f) : f.code ∈ codes := by
  cases x with
  | ok a => exact absurd h (by simp [faultOf?])
  | error g =>
    obtain rfl := Option.some.inj h
    exact hx g rfl

theorem code_mem_of_fault? {call : Call} {f : Fault} (h : call.fault? = some f) :
    f.code ∈ call.codes := by
  cases call with
  | parse s store text =>
    unfold codes
    dsimp only
    split
    next => exact code_mem_of_faultOf? (s.failsWith_parseText store text) h
    next hplain =>
      rw [fault?_parse_of_plain (Bool.eq_false_iff.mpr hplain)] at h
      exact code_mem_of_faultOf? (failsWith_build s.env _) h
  | resolve scope text => exact code_mem_of_faultOf? (scope.failsWith_resolve text) h
  | setPath t path v => exact code_mem_of_faultOf? (t.failsWith_setPath path v) h
  | write t sectionPath key v =>
    exact code_mem_of_faultOf? (t.failsWith_setPath_of_ne_nil (by simp) v) h
  | applyDefaults t d => exact code_mem_of_faultOf? (t.failsWith_fillAll d.entries) h
  | targetName name => exact code_mem_of_faultOf? (Target.failsWith_ofName name) h
  | convert v target => exact code_mem_of_faultOf? (v.failsWith_convert target) h
  | value c path => exact code_mem_of_faultOf? (c.failsWith_value path) h
  | get c reader path => exact code_mem_of_faultOf? (c.failsWith_get path reader) h
  | getOptional c reader path => exact code_mem_of_faultOf? (c.failsWith_getOptional path reader) h
  | keys c path => exact code_mem_of_faultOf? (c.failsWith_keys path) h
  | decode c decoder path => exact code_mem_of_faultOf? (c.failsWith_decode path decoder) h

/-- No code of a call that includes no file is one of files. -/
theorem div_hundred_ne_of_mem_codes {call : Call} (hplain : call.includes = false) {code : Nat}
    (h : code ∈ call.codes) : code / 100 ≠ 3 := by
  revert code
  cases call with
  | parse s store text =>
    rw [includes] at hplain
    rw [codes, hplain]
    decide
  | _ =>
    simp only [codes]
    decide

/-- The fault that a call ends with is reported with a code that the call can give, whose hundreds
    are those of the kind of the report; and only lines that include files give faults of files. -/
theorem report_of_fault? {call : Call} {f : Fault} (h : call.fault? = some f) :
    (∃ code ∈ call.codes, f.report.code? = some code ∧ code / 100 = f.report.kind.century)
      ∧ (call.includes = false → ∀ path, f.report.kind ≠ .file path) := by
  have hcode := code_mem_of_fault? h
  refine ⟨⟨f.code, hcode, rfl, f.code_div_hundred⟩, fun hplain path hfile => ?_⟩
  have hcentury : f.code / 100 = f.report.kind.century := f.code_div_hundred
  rw [hfile] at hcentury
  exact div_hundred_ne_of_mem_codes hplain hcode hcentury

/-- A document whose second statement ends with an operator. -/
def danglingCall : Call :=
  .parse {} {} "a = 1\nb = a +".toList

theorem report_of_danglingCall :
    ∃ f, danglingCall.fault? = some f ∧ f.code = 211 ∧ danglingCall.includes = false
      ∧ (∃ code ∈ danglingCall.codes,
        f.report.code? = some code ∧ code / 100 = f.report.kind.century)
      ∧ ∀ path, f.report.kind ≠ .file path := by
  have hplain : danglingCall.includes = false := by decide +kernel
  have hcode : danglingCall.fault?.map Fault.code = some 211 := by
    rw [danglingCall, fault?_parse_of_plain hplain]
    decide +kernel
  obtain ⟨f, hf, h211⟩ := Option.map_eq_some_iff.mp hcode
  obtain ⟨hreport, hfile⟩ := report_of_fault? hf
  exact ⟨f, hf, h211, hplain, hreport, hfile hplain⟩

end Call

end ConfigLang
