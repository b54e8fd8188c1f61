import ConfigLang.Proofs.DefaultsOverlay
import ConfigLang.Proofs.DefiningLine

set_option autoImplicit false

/-! # The value that was written last

A statement writes its value below the keys of its section, and its own key stays as it is, points
and all; a configuration is read by paths that are cut at every point. Main statement: the value of the
last statement of a document is found under its section and key, and by the text of that path if no
point stands in the key (`Config.value_written`). -/

namespace ConfigLang

open Text

/-! ## Paths and their texts -/

namespace Text

theorem exists_not_blank_of_trim_ne_nil {text : List Char} (h : trim text ≠ []) :
    ∃ c ∈ trim text, isBlank c = false := by
  refine Classical.byContradiction fun hnone => h ?_
  rw [← trim_trim]
  refine trim_of_blank fun c hc => ?_
  by_cases hblank : isBlank c = true
  · exact hblank
  · exact absurd ⟨c, hc, Bool.eq_false_iff.mpr hblank⟩ hnone

end Text

namespace KeyPath

theorem toList_text (path : List String) :
    (KeyPath.text path).toList = ['.'].intercalate (path.map String.toList) :=
  String.toList_intercalate

/-- Keys without points are read back from the text of their path. -/
theorem ofText_text {path : List String} (hne : path ≠ []) (h : ∀ key ∈ path, '.' ∉ key.toList) :
    ofText (KeyPath.text path).toList = path := by
  rw [ofText, toList_text, splitOn_intercalate (by simpa using hne) (by simpa using h),
    List.map_map]
  simp [Function.comp_def]

/-- The text of the keys between the points of a text is the text. -/
theorem toList_text_ofText (text : List Char) : (KeyPath.text (ofText text)).toList = text := by
  have hkeys : (ofText text).map String.toList = splitOn '.' text := by
    rw [ofText, List.map_map]
    simp [Function.comp_def]
  rw [toList_text, hkeys, intercalate_splitOn]

theorem point_not_mem_ofHeader {name : List Char} {key : String} (h : key ∈ ofHeader name) :
    '.' ∉ key.toList := by
  obtain ⟨piece, hpiece, rfl⟩ := List.mem_map.mp h
  rw [String.toList_ofList]
  exact fun hmem => not_mem_of_mem_splitOn hpiece ((infix_trim piece).subset hmem)

end KeyPath

namespace Document

/-! ## Statements of the body -/

/-- A key is trimmed, and not empty. -/
theorem exists_not_blank_of_splitStatement {line initial : List Char} {key : String}
    (h : splitStatement line = .ok (key, initial)) : ∃ c ∈ key.toList, isBlank c = false := by
  unfold splitStatement at h
  split at h
  next => exact absurd h (by simp)
  next before value hkey =>
    split at h
    next => exact absurd h (by simp)
    next hne =>
      obtain ⟨rfl, -⟩ := Prod.mk.inj (Except.ok.inj h)
      rw [Scan.keyValue?, Option.map_eq_some_iff] at hkey
      obtain ⟨⟨front, back⟩, -, hsides⟩ := hkey
      obtain ⟨rfl, -⟩ := Prod.mk.inj hsides
      rw [String.toList_ofList]
      exact exists_not_blank_of_trim_ne_nil fun hnil => hne (List.isEmpty_iff.mpr hnil)

section

variable {part : Part} {sectionPath : List String} {number : Nat} {lines : List (List Char)}

/-- No key of a section holds a point. -/
theorem point_not_mem_of_mem_definitions {d : Definition}
    (hsection : ∀ key ∈ sectionPath, '.' ∉ key.toList)
    (h : d ∈ definitions part sectionPath number lines) : ∀ key ∈ d.sectionPath, '.' ∉ key.toList := by
  revert hsection
  refine mem_definitions_induction ?here ?below ?header ?defaultsHeader h
  case here =>
    intro _ _ _ _ hsection
    exact hsection
  case below =>
    intro _ _ _ _ _ _ ih hsection
    exact ih hsection
  case header =>
    intro _ _ _ _ _ _ ih _
    exact ih fun key hkey => KeyPath.point_not_mem_ofHeader hkey
  case defaultsHeader =>
    intro _ _ _ _ _ ih hsection
    exact ih hsection

theorem part_of_mem_definitions {d : Definition}
    (h : d ∈ definitions .defaults sectionPath number lines) : d.part = .defaults := by
  obtain ⟨part, hpart⟩ : ∃ part, part = Part.defaults := ⟨_, rfl⟩
  rw [← hpart] at h
  revert hpart
  refine mem_definitions_induction ?here ?below ?header ?defaultsHeader h
  case here =>
    intro _ _ _ _ hpart
    exact hpart
  case below =>
    intro _ _ _ _ _ _ ih hpart
    exact ih hpart
  case header =>
    intro _ _ _ _ _ _ ih hpart
    exact ih hpart
  case defaultsHeader =>
    intro _ _ _ _ _ ih _
    exact ih rfl

/-- Below the header of the defaults nothing belongs to the body. -/
theorem pairwise_part_definitions (part : Part) (sectionPath : List String) (number : Nat)
    (lines : List (List Char)) :
    (definitions part sectionPath number lines).Pairwise
      fun d later => later.part = .body → d.part = .body := by
  refine pairwise_definitions ?_ part sectionPath number lines
  intro d rest later hlater hbody
  cases hpart : d.part with
  | body => rfl
  | defaults =>
    rw [hpart] at hlater
    exact (part_of_mem_definitions hlater).symm.trans hbody

end

variable {env : Environment}

/-- A statement of the body leaves its value where its section and key lead, and records no default. -/
theorem exists_of_run {d : Definition} (hbody : d.part = .body) {b next : Building}
    (h : d.run env b = .ok next) :
    ∃ v, Scope.resolve ⟨b.tree, d.sectionPath, env⟩ d.text = .ok v
      ∧ next.tree.toValue.at? (d.sectionPath ++ [d.key]) = some v
      ∧ next.defaults = b.defaults := by
  rw [Definition.run, hbody, put_body] at h
  obtain ⟨v, tree, hresolve, hwrite, rfl⟩ := exists_of_assign h
  exact ⟨v, hresolve, Tree.at?_of_setPath hwrite, rfl⟩

theorem defaults_of_foldlM {statements : List Definition}
    (hbody : ∀ d ∈ statements, d.part = .body) {b final : Building}
    (h : statements.foldlM (Definition.run env) b = .ok final) : final.defaults = b.defaults := by
  induction statements generalizing b with
  | nil =>
    obtain rfl := Except.ok.inj h
    rfl
  | cons d rest ih =>
    rw [List.foldlM_cons] at h
    obtain ⟨next, hrun, hrest⟩ := exists_of_bind h
    obtain ⟨-, -, -, hkept⟩ := exists_of_run (hbody d List.mem_cons_self) hrun
    rw [ih (fun e he => hbody e (List.mem_cons_of_mem _ he)) hrest, hkept]

/-- The last statement, if it stands in the body, leaves its value in the tree, and no statement has
    recorded a default. -/
theorem exists_of_last {lines : List (List Char)} {front : List Definition} {d : Definition}
    {final : Building} (hread : readPart env .body {} lines = .done final)
    (hlast : definitions .body [] 1 lines = front ++ [d]) (hbody : d.part = .body) :
    ∃ before v, front.foldlM (Definition.run env) {} = .ok before
      ∧ Scope.resolve ⟨before.tree, d.sectionPath, env⟩ d.text = .ok v
      ∧ final.tree.toValue.at? (d.sectionPath ++ [d.key]) = some v ∧ final.defaults = {} := by
  have hfront : ∀ e ∈ front, e.part = .body := by
    have hparts := pairwise_part_definitions .body [] 1 lines
    rw [hlast, List.pairwise_append] at hparts
    exact fun e he => hparts.2.2 e he d List.mem_cons_self hbody
  obtain ⟨next, hrun, hfinal⟩ := exists_of_map (foldlM_definitions hread 1 [])
  obtain ⟨htree, hdefaults⟩ := Prod.mk.inj hfinal
  rw [hlast, List.foldlM_append] at hrun
  obtain ⟨before, hbefore, hrest⟩ := exists_of_bind hrun
  rw [List.foldlM_cons] at hrest
  obtain ⟨next, hd, hdone⟩ := exists_of_bind hrest
  obtain rfl := Except.ok.inj hdone
  obtain ⟨v, hresolve, hat, hkept⟩ := exists_of_run hbody hd
  refine ⟨before, v, hbefore, hresolve, htree ▸ hat, ?_⟩
  rw [← hdefaults, hkept, defaults_of_foldlM hfront hbefore]

end Document

/-! ## Reading what was written -/

namespace Config

open Document

variable {store : Files.Store} {env : Environment} {text : List Char} {config : Config}
  {lines : List (List Char)} {front : List Definition} {d : Definition}

/-- The text of a path of keys without points, with something in the last one, leads where the keys
    lead. -/
theorem value_text {path : List String} {key : String} {v : Value}
    (hpath : ∀ k ∈ path ++ [key], '.' ∉ k.toList) (hkey : ∃ c ∈ key.toList, isBlank c = false)
    (hat : config.root.at? (path ++ [key]) = some v) :
    config.value (KeyPath.text (path ++ [key])).toList = .ok v := by
  obtain ⟨c, hc, hblank⟩ := hkey
  have hmem : c ∈ (KeyPath.text (path ++ [key])).toList := by
    rw [KeyPath.toList_text]
    exact mem_intercalate_of_mem (List.mem_map_of_mem (by simp)) hc
  have hne : (trim (KeyPath.text (path ++ [key])).toList).isEmpty = false :=
    List.isEmpty_eq_false_iff.mpr (trim_ne_nil hmem hblank)
  rw [value, find?, hne, KeyPath.ofText_text (by simp) hpath]
  simp [hat]

/-- A value where a statement of the body writes is read by the path of the statement, if no point
    stands in its key. -/
theorem value_path (hd : d ∈ definitions .body [] 1 lines) (hbody : d.part = .body)
    (hpoint : '.' ∉ d.key.toList) {v : Value}
    (hat : config.root.at? (d.sectionPath ++ [d.key]) = some v) :
    config.value d.path.toList = .ok v := by
  have hpath : d.path = KeyPath.text (d.sectionPath ++ [d.key]) := by
    rw [Definition.path, hbody]
    rfl
  obtain ⟨_, raw, _, initial, -, -, hline⟩ := exists_of_mem_definitions hd
  have hkey := exists_not_blank_of_splitStatement (splitStatement_of_ofText hline)
  have hsection := point_not_mem_of_mem_definitions (fun _ hk => absurd hk List.not_mem_nil) hd
  rw [hpath]
  refine value_text ?_ hkey hat
  intro key hmem
  rcases List.mem_append.mp hmem with hsectionKey | hlast
  · exact hsection key hsectionKey
  · rw [List.mem_singleton.mp hlast]
    exact hpoint

/-- The last statement of a document, if it stands in the body, is run behind the others, its text
    resolves to a value, and this is what the configuration holds there. -/
theorem value_written (hparse : Config.parse store env text = .ok config)
    (hlines : expandIncludes store store.workingDirectory [] (Scan.uncommentedLines text) = .ok lines)
    (hlast : definitions .body [] 1 lines = front ++ [d]) (hbody : d.part = .body) :
    ∃ before v,
      front.foldlM (Definition.run env) {} = .ok before
        ∧ Scope.resolve ⟨before.tree, d.sectionPath, env⟩ d.text = .ok v
        ∧ config.root.at? (d.sectionPath ++ [d.key]) = some v
        ∧ ('.' ∉ d.key.toList → config.value d.path.toList = .ok v) := by
  obtain ⟨final, hread, hfill⟩ := exists_readPart hparse hlines
  obtain ⟨before, v, hbefore, hresolve, hat, hnone⟩ := exists_of_last hread hlast hbody
  rw [applyDefaults_of_nil hnone] at hfill
  obtain rfl := Except.ok.inj hfill
  have hd : d ∈ definitions .body [] 1 lines := by simp [hlast]
  exact ⟨before, v, hbefore, hresolve, hat, fun hpoint => value_path hd hbody hpoint hat⟩

/-- A value that is written over another one, in a section of two keys. -/
theorem value_written_twice :
    ∃ config, Config.parse {} {} "[s.t]\nb = 1\nb = 2".toList = .ok config
      ∧ config.value "s.t.b".toList = .ok (.int 2) := by
  have hinclude : ∀ line ∈ Scan.uncommentedLines "[s.t]\nb = 1\nb = 2".toList,
      isInclude line = false := by
    decide +kernel
  obtain ⟨config, hparse⟩ : ∃ config, Config.parse {} {} "[s.t]\nb = 1\nb = 2".toList = .ok config :=
    exists_parse_of_plain hinclude (by decide +kernel)
  have hlast : definitionsOf "[s.t]\nb = 1\nb = 2".toList
      = [⟨.body, 2, ["s", "t"], "b", "1".toList, []⟩]
        ++ [⟨.body, 3, ["s", "t"], "b", "2".toList, []⟩] := by
    decide +kernel
  obtain ⟨before, v, -, hresolve, -, hvalue⟩ :=
    value_written hparse (expandIncludes_of_plain {} _ [] hinclude) hlast rfl
  have hv : v = .int 2 := by
    have hliteral : Scope.resolve ⟨before.tree, ["s", "t"], {}⟩ "2".toList = .ok (.int 2) :=
      (Scalar.int 2).resolveBy_literal _ _
    exact Except.ok.inj (hresolve.symm.trans hliteral)
  refine ⟨config, hparse, ?_⟩
  rw [← hv]
  exact hvalue (by decide)

/-- A key with a point in it is written as one key, and no path leads to it. -/
theorem value_written_point :
    definitionsOf "a.b = 1".toList = [⟨.body, 1, [], "a.b", "1".toList, []⟩]
      ∧ ∃ config, Config.parse {} {} "a.b = 1".toList = .ok config
        ∧ config.root.at? ["a.b"] = some (.int 1)
        ∧ config.value "a.b".toList = .error (.unresolved (.unknownPath "a.b")) := by
  have hinclude : ∀ line ∈ Scan.uncommentedLines "a.b = 1".toList, isInclude line = false := by
    decide +kernel
  refine ⟨by decide +kernel, ofTree ⟨[("a.b", .int 1)]⟩ "a.b = 1".toList, ?_, rfl, rfl⟩
  rw [parse_of_plain hinclude]
  with_unfolding_all rfl

end Config

end ConfigLang
