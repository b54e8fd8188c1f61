import ConfigLang.Config.Basic
import ConfigLang.Proofs.Definitions
import ConfigLang.Proofs.IncludeChains
import Mathlib.Data.List.Basic

set_option autoImplicit false

/-! # The line that defines a path

The search for the line that defines a path goes over the source of a document for itself: it skips
neither the block comments nor the lines that a value goes on for. Main statement: where the block
comments leave the lines what they are and no value goes on over what looks like a header, the
search finds the last definition of a path exactly if neither that definition nor a later one goes
on over what looks like a statement of the path (`Config.locate?_line_iff`). -/

namespace ConfigLang

open Text

namespace Config.Search

open Document

/-! ## What the search takes a line for -/

/-- What the search takes a line for. -/
inductive Mark where
  | silent
  | header (name : List Char)
  | statement (key : List Char)
  deriving DecidableEq

namespace Mark

/-- What the search takes a line for that has no line comment. -/
def ofLine (line : List Char) : Mark :=
  match header? (trim line) with
  | some name => .header name
  | none =>
    match Scan.keyValue? (trim line) with
    | none => .silent
    | some (key, _) => .statement key

/-- What the search takes a line of the source for. -/
def ofSource (raw : List Char) : Mark :=
  ofLine (Scan.stripLineComment raw)

/-- Whether a line of a section is taken for a statement of a path. -/
def states (part : Part) (sectionPath : List String) (path : String) : Mark → Bool
  | .statement key => part.spelled sectionPath (String.ofList key) == path
  | _ => false

theorem ofLine_trim (line : List Char) : ofLine (trim line) = ofLine line := by
  rw [ofLine, ofLine, trim_trim]

/-- Whether the search takes a line of a part for what it says. -/
def Fits (part : Part) (mark : Mark) : Line → Prop
  | .silent => mark = .silent
  | .header name => part = .body ∧ mark = .header name ∧ isDefaultsName name = false
  | .defaultsHeader => ∃ name, mark = .header name ∧ isDefaultsName name = true
  | .malformed _ => True
  | .statement key _ => mark = .statement key.toList

theorem fits_ofSplit {line : List Char} (hheader : header? (trim line) = none) (part : Part) :
    (ofLine line).Fits part (Line.ofSplit (splitStatement (trim line))) := by
  rw [ofLine, hheader, splitStatement]
  cases Scan.keyValue? (trim line) with
  | none => exact trivial
  | some parts =>
    obtain ⟨key, value⟩ := parts
    cases hkey : key.isEmpty with
    | true => simp only [hkey, if_true, Line.ofSplit, Fits]
    | false => simp [hkey, Line.ofSplit, Fits]

theorem ofLine_of_no_equals {line : List Char} (hheader : header? (trim line) = none)
    (h : (trim line).contains '=' = false) : ofLine line = .silent := by
  have hkey : Scan.keyValue? (trim line) = none := by
    rw [Scan.keyValue?, Scan.cutUnquoted?, Scan.cutWhen?_eq_none_of_forall]
    · rfl
    · intro c hc
      rw [beq_eq_false_iff_ne]
      rintro rfl
      simp [hc] at h
  rw [ofLine, hheader, hkey]

/-- What a line says in its part, the search takes it for. -/
theorem fits_ofText (part : Part) (line : List Char) :
    (ofLine line).Fits part (Line.ofText part (trim line)) := by
  cases part with
  | body =>
    rw [Line.ofText]
    split
    next hempty =>
      rw [ofLine, List.isEmpty_iff.mp hempty]
      rfl
    next =>
      split
      next name hheader =>
        have hmark : ofLine line = .header name := by rw [ofLine, hheader]
        split
        next hdefaults => exact ⟨name, hmark, hdefaults⟩
        next hdefaults => exact ⟨rfl, hmark, Bool.eq_false_iff.mpr hdefaults⟩
      next hheader =>
        split
        next => exact fits_ofSplit hheader .body
        next hequals =>
          split
          next => exact ofLine_of_no_equals hheader (Bool.eq_false_iff.mpr hequals)
          next => exact trivial
  | defaults =>
    rw [Line.ofText]
    split
    next => exact trivial
    next hsome =>
      have hheader := Option.not_isSome_iff_eq_none.mp hsome
      split
      next => exact fits_ofSplit hheader .defaults
      next hequals => exact ofLine_of_no_equals hheader (Bool.eq_false_iff.mpr hequals)

theorem ofLine_ne_header {line : List Char} (h : header? (trim line) = none) (name : List Char) :
    ofLine line ≠ .header name := by
  rw [ofLine, h]
  cases Scan.keyValue? (trim line) <;> simp

end Mark

/-- Where the search points to in a line of the source. -/
def placeOf (raw : List Char) (number : Nat) : Place :=
  ⟨number, String.ofList (trim (Scan.stripLineComment raw))⟩

/-- What passing a line does. -/
theorem pass_eq (path : String) (s : Search) (raw : List Char) (number : Nat) :
    s.pass path (raw, number)
      = match Mark.ofSource raw with
        | .silent => s
        | .header name => s.enter name
        | .statement key =>
          if s.fullPath key == path && (!s.inDefaults || s.found?.isNone) then
            { s with found? := some (placeOf raw number) }
          else s := by
  rw [pass, Mark.ofSource, Mark.ofLine]
  cases header? (trim (Scan.stripLineComment raw)) with
  | some name => rfl
  | none => cases Scan.keyValue? (trim (Scan.stripLineComment raw)) <;> rfl

/-! ## Lines of one section -/

/-- What is kept of the lines of a part that state a path, taken in their order: in the body the
    last one, among the defaults the first one, and that only if there is none before. -/
def settle (part : Part) (sightings : List Nat) (found? : Option Nat) : Option Nat :=
  match part with
  | .body => sightings.getLast?.or found?
  | .defaults => found?.or sightings.head?

theorem settle_nil (part : Part) (found? : Option Nat) : settle part [] found? = found? := by
  cases part with
  | body => rfl
  | defaults => exact Option.or_none

theorem settle_append (part : Part) (front back : List Nat) (found? : Option Nat) :
    settle part (front ++ back) found? = settle part back (settle part front found?) := by
  cases part with
  | body => rw [settle, settle, settle, List.getLast?_append, Option.or_assoc]
  | defaults => rw [settle, settle, settle, List.head?_append, Option.or_assoc]

/-- What the search knows in a part of a document where a section is current. -/
def within (part : Part) (sectionPath : List String) (found? : Option Place) : Search :=
  ⟨sectionPath, part == .defaults, found?⟩

variable (part : Part) (sectionPath : List String) (path : String)

@[simp]
theorem inDefaults_within (found? : Option Place) :
    (within part sectionPath found?).inDefaults = (part == .defaults) :=
  rfl

@[simp]
theorem found?_within (found? : Option Place) :
    (within part sectionPath found?).found? = found? :=
  rfl

/-- The search spells paths as the document does. -/
theorem fullPath_within (found? : Option Place) (key : List Char) :
    (within part sectionPath found?).fullPath key
      = part.spelled sectionPath (String.ofList key) := by
  cases part with
  | defaults => rfl
  | body =>
    cases sectionPath with
    | nil => exact (String.intercalate_singleton (s := ".")).symm
    | cons first rest =>
      rw [Part.spelled, KeyPath.text, String.intercalate_append_of_ne_nil
        (List.cons_ne_nil first rest) (List.cons_ne_nil _ []), String.intercalate_singleton]
      rfl

/-- Behind a line that is no header, what was found is settled with what the line states. -/
theorem pass_within {raw : List Char} (hheader : ∀ name, Mark.ofSource raw ≠ .header name)
    (number : Nat) (found? : Option Place) :
    ∃ later?,
      (within part sectionPath found?).pass path (raw, number) = within part sectionPath later?
      ∧ later?.map Place.line
        = settle part (if (Mark.ofSource raw).states part sectionPath path then [number] else [])
          (found?.map Place.line) := by
  rw [pass_eq]
  cases hmark : Mark.ofSource raw with
  | silent => exact ⟨found?, rfl, (settle_nil part _).symm⟩
  | header name => exact absurd hmark (hheader name)
  | statement key =>
    by_cases hpath : part.spelled sectionPath (String.ofList key) = path
    · cases part with
      | body =>
        refine ⟨some (placeOf raw number), ?_, ?_⟩
        · simp [fullPath_within, hpath]
          rfl
        · simp [Mark.states, hpath, settle, placeOf]
      | defaults =>
        cases found? with
        | none =>
          refine ⟨some (placeOf raw number), ?_, ?_⟩
          · simp [fullPath_within, hpath]
            rfl
          · simp [Mark.states, hpath, settle, placeOf]
        | some place =>
          refine ⟨some place, ?_, ?_⟩
          · simp [fullPath_within]
          · simp [settle]
    · refine ⟨found?, ?_, ?_⟩
      · simp [fullPath_within, hpath]
      · simp [Mark.states, hpath, settle_nil]

/-- The numbers of the lines of a section that are taken for statements of a path. -/
def sightings (part : Part) (sectionPath : List String) (path : String) (number : Nat)
    (lines : List (List Char)) : List Nat :=
  (lines.zipIdx number).flatMap fun (line, number) =>
    if (Mark.ofLine line).states part sectionPath path then [number] else []

theorem sightings_cons (number : Nat) (line : List Char) (rest : List (List Char)) :
    sightings part sectionPath path number (line :: rest)
      = (if (Mark.ofLine line).states part sectionPath path then [number] else [])
        ++ sightings part sectionPath path (number + 1) rest :=
  rfl

theorem foldl_pass_within {raws rows : List (List Char)}
    (hmarks : raws.map Mark.ofSource = rows.map Mark.ofLine)
    (hrows : ∀ row ∈ rows, header? (trim row) = none) (number : Nat) (found? : Option Place) :
    ∃ later?, (raws.zipIdx number).foldl (pass path) (within part sectionPath found?)
        = within part sectionPath later?
      ∧ later?.map Place.line
        = settle part (sightings part sectionPath path number rows) (found?.map Place.line) := by
  induction rows generalizing raws number found? with
  | nil =>
    rw [List.map_nil, List.map_eq_nil_iff] at hmarks
    exact ⟨found?, by rw [hmarks]; rfl, (settle_nil part _).symm⟩
  | cons row rows ih =>
    obtain ⟨raw, raws, rfl, hmark, hmarks⟩ := List.map_eq_cons_iff.mp hmarks
    obtain ⟨hrow, hrows⟩ := List.forall_mem_cons.mp hrows
    obtain ⟨next?, hpass, hnext⟩ := pass_within part sectionPath path
      (hmark ▸ Mark.ofLine_ne_header hrow) number found?
    obtain ⟨later?, hfold, hlater⟩ := ih hmarks hrows (number + 1) next?
    refine ⟨later?, ?_, ?_⟩
    · rw [List.zipIdx_cons, List.foldl_cons, hpass, hfold]
    · rw [hlater, hnext, hmark, ← settle_append, sightings_cons]

/-! ## Lines of a document -/

theorem pass_header {raw name : List Char} (hmark : Mark.ofSource raw = .header name)
    (hname : isDefaultsName name = false) (number : Nat) (found? : Option Place) :
    (within .body sectionPath found?).pass path (raw, number)
      = within .body (KeyPath.ofHeader name) found? := by
  rw [pass_eq, hmark]
  simp only [enter, hname]
  rfl

theorem pass_defaultsHeader {raw name : List Char} (hmark : Mark.ofSource raw = .header name)
    (hname : isDefaultsName name = true) (number : Nat) (found? : Option Place) :
    (within part sectionPath found?).pass path (raw, number)
      = within .defaults sectionPath found? := by
  rw [pass_eq, hmark]
  simp only [enter, hname]
  rfl

end Config.Search

namespace Document.Definition

/-- The numbers of the lines of a definition that are taken for statements of a path. -/
def sightings (d : Definition) (path : String) : List Nat :=
  (if d.path == path then [d.line] else [])
    ++ Config.Search.sightings d.part d.sectionPath path (d.line + 1) d.rows

/-- What is kept of the lines of a definition. -/
def settle (path : String) (found? : Option Nat) (d : Definition) : Option Nat :=
  Config.Search.settle d.part (d.sightings path) found?

end Document.Definition

namespace Config.Search

open Document

variable {part : Part} {path : String} {env : Environment} {b final : Building}
  {lines : List (List Char)}

/-- A line of the source, and those behind it, where the search takes its lines for what those of
    the document say. -/
theorem exists_source {raws rest : List (List Char)} {line : List Char} {said : Line}
    (hmarks : raws.map Mark.ofSource = (line :: rest).map Mark.ofLine)
    (hline : Line.ofText part (trim line) = said) :
    ∃ raw left, raws = raw :: left ∧ (Mark.ofSource raw).Fits part said
      ∧ left.map Mark.ofSource = rest.map Mark.ofLine := by
  obtain ⟨raw, left, rfl, hmark, hleft⟩ := List.map_eq_cons_iff.mp hmarks
  have hfits := Mark.fits_ofText part line
  rw [hline, ← hmark] at hfits
  exact ⟨raw, left, rfl, hfits, hleft⟩

/-- Behind the lines of a definition, what was found is settled with them. -/
theorem foldl_pass_definition (d : Definition) {raw : List Char} {raws : List (List Char)}
    (hmark : Mark.ofSource raw = .statement d.key.toList)
    (hmarks : raws.map Mark.ofSource = d.rows.map Mark.ofLine)
    (hrows : ∀ row ∈ d.rows, header? (trim row) = none) (path : String) (found? : Option Place) :
    ∃ later?,
      ((raw :: raws).zipIdx d.line).foldl (pass path) (within d.part d.sectionPath found?)
        = within d.part d.sectionPath later?
      ∧ later?.map Place.line = d.settle path (found?.map Place.line) := by
  have hstatement (name : List Char) : Mark.ofSource raw ≠ .header name := by simp [hmark]
  obtain ⟨stated?, hpass, hstated⟩ :=
    pass_within d.part d.sectionPath path hstatement d.line found?
  obtain ⟨later?, hfold, hlater⟩ :=
    foldl_pass_within d.part d.sectionPath path hmarks hrows (d.line + 1) stated?
  refine ⟨later?, ?_, ?_⟩
  · rw [List.zipIdx_cons, List.foldl_cons, hpass, hfold]
  · rw [hlater, hstated, ← settle_append, hmark]
    rw [Mark.states, String.ofList_toList]
    rfl

/-- Passing the lines of a part finds what settling its definitions one after another finds. -/
theorem foldl_pass_definitions (h : readPart env part b lines = .done final)
    (raws : List (List Char)) (hmarks : raws.map Mark.ofSource = lines.map Mark.ofLine)
    (number : Nat) (found? : Option Place)
    (hrows : ∀ d ∈ definitions part b.sectionPath number lines, ∀ row ∈ d.rows,
      header? (trim row) = none) :
    ((raws.zipIdx number).foldl (pass path) (within part b.sectionPath found?)).found?.map
        Place.line
      = (definitions part b.sectionPath number lines).foldl
          (Definition.settle path) (found?.map Place.line) := by
  revert raws number found?
  refine readPart_induction ?nil ?silent ?header ?defaultsHeader ?statement h
  case nil =>
    intro part raws hmarks number found? _
    rw [List.map_nil, List.map_eq_nil_iff] at hmarks
    rw [hmarks, definitions]
    rfl
  case silent =>
    intro part b line rest hline ih raws hmarks number found? hrows
    obtain ⟨raw, left, rfl, hmark, hleft⟩ := exists_source hmarks hline
    rw [definitions, hline] at hrows ⊢
    rw [List.zipIdx_cons, List.foldl_cons, pass_eq, hmark]
    exact ih left hleft _ found? hrows
  case header =>
    intro part b line rest name hline ih raws hmarks number found? hrows
    obtain ⟨raw, left, rfl, ⟨rfl, hmark, hname⟩, hleft⟩ := exists_source hmarks hline
    rw [definitions, hline] at hrows ⊢
    rw [List.zipIdx_cons, List.foldl_cons, pass_header _ path hmark hname]
    exact ih left hleft _ found? hrows
  case defaultsHeader =>
    intro part b line rest hline ih raws hmarks number found? hrows
    obtain ⟨raw, left, rfl, ⟨name, hmark, hname⟩, hleft⟩ := exists_source hmarks hline
    rw [definitions, hline] at hrows ⊢
    rw [List.zipIdx_cons, List.foldl_cons, pass_defaultsHeader part _ path hmark hname]
    exact ih left hleft _ found? hrows
  case statement =>
    intro part b line rest key initial next hline hput ih raws hmarks number found? hrows
    obtain ⟨raw, left, rfl, hmark, hleft⟩ := exists_source hmarks hline
    -- The lines below the statement are the rows of its value, and those that are read next.
    rw [← rowsBelow_append initial rest, List.map_append] at hleft
    obtain ⟨rows, behind, rfl, hrowMarks, hbehind⟩ := List.map_eq_append_iff.mp hleft
    rw [definitions, hline] at hrows ⊢
    obtain ⟨hown, hlater⟩ := List.forall_mem_cons.mp hrows
    obtain ⟨passed?, hfold, hpassed⟩ := foldl_pass_definition
      ⟨part, number, b.sectionPath, key, (captureBlock initial rest).1, rowsBelow initial rest⟩
      hmark hrowMarks hown path found?
    have hlength : number + (raw :: rows).length = number + 1 + (rowsBelow initial rest).length := by
      have := congrArg List.length hrowMarks
      simp only [List.length_map] at this
      simp only [List.length_cons, this]
      omega
    rw [← sectionPath_put hput] at hlater hfold
    rw [← List.cons_append, List.zipIdx_append, List.foldl_append, ← sectionPath_put hput, hfold,
      hlength, ih behind hbehind _ passed? hlater, List.foldl_cons, hpassed, sectionPath_put hput]

/-! ## The last definition -/

theorem le_of_mem_sightings {sectionPath : List String} {number n : Nat}
    (h : n ∈ sightings part sectionPath path number lines) : number ≤ n := by
  obtain ⟨⟨line, m⟩, hline, hn⟩ := List.mem_flatMap.mp h
  dsimp only at hn
  split at hn
  · rw [List.mem_singleton.mp hn]
    exact (List.mem_zipIdx hline).1
  · exact absurd hn List.not_mem_nil

theorem sightings_eq_nil_iff {sectionPath : List String} (number : Nat) :
    sightings part sectionPath path number lines = []
      ↔ lines.any (fun line => (Mark.ofLine line).states part sectionPath path) = false := by
  induction lines generalizing number with
  | nil => exact iff_of_true rfl rfl
  | cons line rest ih =>
    rw [sightings_cons, List.append_eq_nil_iff, ih, List.any_cons, Bool.or_eq_false_iff]
    cases (Mark.ofLine line).states part sectionPath path <;> simp

end Config.Search

namespace Document.Definition

/-- Whether a line that a value goes on for is taken for a statement of a path. -/
def mimics (d : Definition) (path : String) : Bool :=
  d.rows.any fun row => (Config.Search.Mark.ofLine row).states d.part d.sectionPath path

variable {d : Definition} {path : String}

theorem line_le_of_mem_sightings {n : Nat} (h : n ∈ d.sightings path) : d.line ≤ n := by
  rw [sightings, List.mem_append] at h
  rcases h with hown | hrow
  · split at hown
    · exact Nat.le_of_eq (List.mem_singleton.mp hown).symm
    · exact absurd hown List.not_mem_nil
  · exact Nat.le_of_succ_le (Config.Search.le_of_mem_sightings hrow)

theorem sightings_eq_nil_iff (h : d.path ≠ path) :
    d.sightings path = [] ↔ d.mimics path = false := by
  rw [sightings, if_neg (by simpa using h), List.nil_append, Config.Search.sightings_eq_nil_iff, mimics]

/-- Of a definition of the body, the line on which it begins is the last one that states its path,
    unless its value goes on over one that does. -/
theorem getLast?_sightings_iff :
    (d.sightings d.path).getLast? = some d.line ↔ d.mimics d.path = false := by
  rw [mimics, ← Config.Search.sightings_eq_nil_iff (d.line + 1), sightings, beq_self_eq_true, if_pos rfl,
    List.singleton_append, List.getLast?_cons, Option.some_inj]
  cases hlast :
    (Config.Search.sightings d.part d.sectionPath d.path (d.line + 1) d.rows).getLast? with
  | none => exact iff_of_true rfl (List.getLast?_eq_none_iff.mp hlast)
  | some n =>
    have hmem := List.mem_of_getLast? hlast
    have hle := Config.Search.le_of_mem_sightings hmem
    refine iff_of_false (fun hline => ?_) (List.ne_nil_of_mem hmem)
    rw [Option.getD_some] at hline
    omega

end Document.Definition

namespace Config

open Document

theorem foldl_settle_eq_iff {path : String} {line : Nat} {later : List Definition}
    (hlater : ∀ d ∈ later, line < d.line) (found : Nat) :
    later.foldl (Definition.settle path) (some found) = some line
      ↔ found = line ∧ ∀ d ∈ later, d.part = .body → d.sightings path = [] := by
  induction later generalizing found with
  | nil => simp
  | cons d later ih =>
    obtain ⟨hd, hlater⟩ := List.forall_mem_cons.mp hlater
    rw [List.foldl_cons, List.forall_mem_cons]
    cases hpart : d.part with
    | defaults => simpa [Definition.settle, Search.settle, hpart] using ih hlater found
    | body =>
      cases hlast : (d.sightings path).getLast? with
      | none =>
        have hnil := List.getLast?_eq_none_iff.mp hlast
        simpa [Definition.settle, Search.settle, hpart, hnil] using ih hlater found
      | some n =>
        have hmem := List.mem_of_getLast? hlast
        have hle := Definition.line_le_of_mem_sightings hmem
        rw [Definition.settle, hpart, Search.settle, hlast, Option.some_or, ih hlater n]
        refine iff_of_false (fun h => ?_) fun h => List.ne_nil_of_mem hmem (h.2.1 rfl)
        omega

variable {store : Files.Store} {env : Environment} {text : List Char} {config : Config}

/-- A document that includes no file is built from its lines. -/
theorem parse_of_plain
    (hinclude : ∀ line ∈ Scan.uncommentedLines text, isInclude line = false) :
    Config.parse store env text
      = (build env ((Scan.uncommentedLines text).map trim)).result.map
          fun b => ofTree b.tree text := by
  rw [Config.parse, parseText_of_plain store env hinclude]
  cases (build env ((Scan.uncommentedLines text).map trim)).result <;> rfl

/-- The lines of a document that has been parsed are read to their end. -/
theorem exists_readPart {lines : List (List Char)} (hparse : Config.parse store env text = .ok config)
    (hlines : expandIncludes store store.workingDirectory [] (Scan.uncommentedLines text) = .ok lines) :
    ∃ final, readPart env .body {} lines = .done final
      ∧ final.applyDefaults.result.map (fun b => ofTree b.tree text) = .ok config := by
  rw [Config.parse, parseText_eq, hlines] at hparse
  simp only [Except.bind, build] at hparse
  cases hread : readLines env {} lines with
  | stopped b f =>
    rw [hread] at hparse
    exact absurd hparse (by simp [Outcome.result, Except.map])
  | done final =>
    rw [hread] at hparse
    refine ⟨final, hread, ?_⟩
    rw [← hparse]
    cases final.applyDefaults.result <;> rfl

theorem exists_parse_of_plain
    (hinclude : ∀ line ∈ Scan.uncommentedLines text, isInclude line = false)
    (hbuild : (build env ((Scan.uncommentedLines text).map trim)).result.isOk = true) :
    ∃ config, Config.parse store env text = .ok config := by
  rw [parse_of_plain hinclude]
  cases hresult : (build env ((Scan.uncommentedLines text).map trim)).result with
  | error f =>
    rw [hresult] at hbuild
    exact absurd hbuild Bool.false_ne_true
  | ok b => exact ⟨_, rfl⟩

/-- A configuration is what the definitions of its document give one after another, filled up with
    the defaults among them. -/
theorem parse_definitions (hparse : Config.parse store env text = .ok config)
    (hinclude : ∀ line ∈ Scan.uncommentedLines text, isInclude line = false) :
    ∃ tree defaults,
      ((definitionsOf text).foldlM (Definition.run env) {}).map (fun b => (b.tree, b.defaults))
          = .ok (tree, defaults)
        ∧ (tree.applyDefaults defaults).result.map (ofTree · text) = .ok config := by
  obtain ⟨final, hread, hfill⟩ := exists_readPart hparse (expandIncludes_of_plain store _ [] hinclude)
  refine ⟨final.tree, final.defaults, foldlM_definitions hread 1 [], ?_⟩
  rw [← hfill, Building.applyDefaults]
  cases final.tree.applyDefaults final.defaults <;> rfl

/-- Where block comments leave the lines what they are and no value goes on over what looks like a
    header, the search finds what is kept of the lines of all definitions. -/
theorem locate?_line (hparse : Config.parse store env text = .ok config)
    (hinclude : ∀ line ∈ Scan.uncommentedLines text, isInclude line = false)
    (hmarks : (splitOn '\n' text).map Search.Mark.ofSource
      = (Scan.uncommentedLines text).map Search.Mark.ofLine)
    (hrows : ∀ d ∈ definitionsOf text, ∀ row ∈ d.rows, header? (trim row) = none)
    (path : String) :
    (locate? path text).map Place.line
      = (definitionsOf text).foldl (Definition.settle path) none := by
  obtain ⟨final, hread, -⟩ := exists_readPart hparse (expandIncludes_of_plain store _ [] hinclude)
  refine Search.foldl_pass_definitions hread _ ?_ 1 none hrows
  rw [hmarks, List.map_map]
  exact List.map_congr_left fun line _ => (Search.Mark.ofLine_trim line).symm

/-- Where block comments leave the lines what they are and no value goes on over what looks like a
    header, the search finds the line of the last definition of a path in the body exactly if
    neither its value nor that of a later definition goes on over what looks like a statement of the
    path. -/
theorem locate?_line_iff (hparse : Config.parse store env text = .ok config)
    (hinclude : ∀ line ∈ Scan.uncommentedLines text, isInclude line = false)
    (hmarks : (splitOn '\n' text).map Search.Mark.ofSource
      = (Scan.uncommentedLines text).map Search.Mark.ofLine)
    (hrows : ∀ d ∈ definitionsOf text, ∀ row ∈ d.rows, header? (trim row) = none)
    {front back : List Definition} {d : Definition} (hd : definitionsOf text = front ++ d :: back)
    (hbody : d.part = .body) (hlast : ∀ e ∈ back, e.part = .body → e.path ≠ d.path) :
    (locate? d.path text).map Place.line = some d.line
      ↔ ∀ e ∈ d :: back, e.part = .body → e.mimics d.path = false := by
  have horder := pairwise_line_definitions .body [] 1 ((Scan.uncommentedLines text).map trim)
  rw [← definitionsOf, hd] at horder
  have hlater := (List.pairwise_cons.mp (List.pairwise_append.mp horder).2.1).1
  have hback : (∀ e ∈ back, e.part = .body → e.sightings d.path = [])
      ↔ ∀ e ∈ back, e.part = .body → e.mimics d.path = false :=
    forall₃_congr fun e he hpart => Definition.sightings_eq_nil_iff (hlast e he hpart)
  -- What is kept of the lines of `d` hides what was found before them.
  have hown : d.line ∈ d.sightings d.path := by simp [Definition.sightings]
  obtain ⟨n, hn⟩ := Option.isSome_iff_exists.mp (List.getLast?_isSome.mpr (List.ne_nil_of_mem hown))
  rw [locate?_line hparse hinclude hmarks hrows, hd, List.foldl_append, List.foldl_cons,
    Definition.settle, hbody, Search.settle, hn, Option.some_or, foldl_settle_eq_iff hlater, hback,
    List.forall_mem_cons, ← Definition.getLast?_sightings_iff, hn, Option.some_inj]
  simp [hbody]

/-- A path that is defined twice and has a default, and a value of three rows. -/
def serverDocument : List Char :=
  ("[server]\nport = 1 /* old */\nports = [\n80,\n443 ]\nport = 8080\n"
    ++ "[defaults]\nserver.port = 9").toList

theorem locate?_serverDocument :
    (∃ config, Config.parse {} {} serverDocument = .ok config)
      ∧ (definitionsOf serverDocument).map (fun d => (d.path, d.line))
        = [("server.port", 2), ("server.ports", 3), ("server.port", 6), ("server.port", 8)]
      ∧ (locate? "server.port" serverDocument).map Place.line = some 6 := by
  have hinclude : ∀ line ∈ Scan.uncommentedLines serverDocument, isInclude line = false := by
    decide +kernel
  obtain ⟨config, hparse⟩ : ∃ config, Config.parse {} {} serverDocument = .ok config :=
    exists_parse_of_plain hinclude (by decide +kernel)
  have hd : definitionsOf serverDocument = (definitionsOf serverDocument).take 2
      ++ ⟨.body, 6, ["server"], "port", "8080".toList, []⟩
        :: [⟨.defaults, 8, ["server"], "server.port", "9".toList, []⟩] := by
    decide +kernel
  have hline := (locate?_line_iff hparse hinclude (by decide +kernel) (by decide +kernel) hd rfl
    (by decide +kernel)).mpr (by decide +kernel)
  exact ⟨⟨config, hparse⟩, by decide +kernel, hline⟩

/-- Documents of which the search takes the lines for something else: a row for a header, a row for
    a statement, and what a block comment holds for a statement. -/
def misleadingDocuments : List (List Char) :=
  ["rows = [\n[1]\n]\nport = 80", "port = 80\nnotes = [\nport = 90\n]",
    "port = 80\n/*\nport = 90\n*/"].map String.toList

/-- A document that can be parsed and defines a path once, in its body and on a line that the search
    does not find. -/
structure Misleading (path : String) (text : List Char) : Prop where
  parsed : ∃ config, Config.parse {} {} text = .ok config
  no_include : ∀ line ∈ Scan.uncommentedLines text, isInclude line = false
  missed : ∃ d ∈ definitionsOf text, d.part = .body ∧ d.path = path
    ∧ (∀ e ∈ definitionsOf text, e.path = path → e = d)
    ∧ (locate? path text).map Place.line ≠ some d.line

theorem locate?_misleadingDocuments : misleadingDocuments.Forall (Misleading "port") := by
  have hinclude : ∀ text ∈ misleadingDocuments, ∀ line ∈ Scan.uncommentedLines text,
      isInclude line = false := by
    decide +kernel
  have hbuild : ∀ text ∈ misleadingDocuments,
      (build {} ((Scan.uncommentedLines text).map trim)).result.isOk = true := by
    decide +kernel
  have hmissed : ∀ text ∈ misleadingDocuments,
      ∃ d ∈ definitionsOf text, d.part = .body ∧ d.path = "port"
        ∧ (∀ e ∈ definitionsOf text, e.path = "port" → e = d)
        ∧ (locate? "port" text).map Place.line ≠ some d.line := by
    decide +kernel
  rw [List.forall_iff_forall_mem]
  intro text htext
  exact ⟨exists_parse_of_plain (hinclude text htext) (hbuild text htext), hinclude text htext,
    hmissed text htext⟩

end Config

end ConfigLang
