import ConfigLang.Proofs.IncludedText

set_option autoImplicit false

/-! # Sessions and what they were asked before

A session answers one request after another, and some of them fail. Main statement: an answer depends
on the requests before it by one thing alone, the directory of the last file that could be read, and
by this only when a text is parsed (`Session.answer_after`). -/

namespace ConfigLang

open Text

/-! ## The directory of a file -/

namespace Files

theorem dropIdle_suffix (parts : List (List Char)) : dropIdle parts <:+ parts := by
  fun_induction dropIdle parts with
  | case1 => exact List.suffix_rfl
  | case2 first => exact List.suffix_rfl
  | case3 part rest _ _ ih => exact ih.trans (List.suffix_cons part rest)
  | case4 part rest => exact List.suffix_rfl

theorem dropIdle_ne_nil {parts : List (List Char)} (h : parts ≠ []) : dropIdle parts ≠ [] := by
  fun_induction dropIdle parts with
  | case1 => exact h
  | case2 first => exact h
  | case3 part rest hrest _ ih => exact ih fun hnil => hrest hnil
  | case4 part rest => exact h

/-- Of a path without a directory only an empty first part is left. -/
theorem dropIdle_of_parent?_eq_none {path : List Char} (h : parent? path = none) :
    dropIdle (splitOn '/' path).reverse = [[]] := by
  have hparts : (splitOn '/' path).reverse ≠ [] := by
    rw [Ne, List.reverse_eq_nil_iff]
    exact splitOn_ne_nil '/' path
  unfold parent? at h
  split at h
  next hnil => exact absurd hnil (dropIdle_ne_nil hparts)
  next first hfirst =>
    split at h
    next hempty => rw [hfirst, List.isEmpty_iff.mp hempty]
    next => exact absurd h (by simp)
  next =>
    split at h <;> exact absurd h (by simp)

/-- A path without a directory is empty, or it is absolute and names nothing at its end. -/
theorem parts_of_parent?_eq_none {path : List Char} (h : parent? path = none) :
    path = [] ∨ isAbsolute path = true
      ∧ ∃ parts last, splitOn '/' path = parts ++ [last] ∧ (last = [] ∨ last = ['.']) := by
  have hleft := dropIdle_of_parent?_eq_none h
  obtain ⟨behind, hbehind⟩ := hleft ▸ dropIdle_suffix (splitOn '/' path).reverse
  have hpath := intercalate_splitOn '/' path
  have hsplit : splitOn '/' path = [] :: behind.reverse := by
    rw [← List.reverse_reverse (splitOn '/' path), ← hbehind, List.reverse_append]
    rfl
  cases behind with
  | nil =>
    rw [hsplit] at hpath
    exact Or.inl hpath.symm
  | cons last between =>
    refine Or.inr ⟨?_, [] :: between.reverse, last, by simpa using hsplit, ?_⟩
    · obtain ⟨next, more, hmore⟩ :=
        List.exists_cons_of_ne_nil (mt List.reverse_eq_nil_iff.mp (List.cons_ne_nil last between))
      rw [← hpath, hsplit, intercalate_cons_flatMap, hmore, List.flatMap_cons]
      rfl
    · rw [← hbehind, List.cons_append, dropIdle] at hleft
      · split at hleft
        next hidle => exact hidle
        next => exact absurd hleft (by simp)
      · simp

theorem Store.read_of_parent?_eq_none (store : Store) {path : List Char} (h : parent? path = none) :
    ∃ why, store.read path = .error why := by
  cases hlocate : store.locate path with
  | error why => exact ⟨why, by rw [read, hlocate]; rfl⟩
  | ok key =>
    refine ⟨.isDirectory, ?_⟩
    rcases parts_of_parent?_eq_none h with rfl | ⟨habsolute, parts, last, hparts, hlast⟩
    · exact absurd hlocate (by simp [locate])
    · have hwalk := walk_of_locate hlocate
      rw [join, if_pos habsolute, hparts] at hwalk
      rw [read, hlocate]
      simp only [bind, Except.bind]
      rw [fileAt?_of_directory (node?_of_walk hlast hwalk)]
      rfl

end Files

open Document Files

/-! ## Requests -/

/-- What a session can be asked to parse. -/
inductive Request where
  | text (text : List Char)
  | file (path : List Char)

/-- The directory of a file that can be read. -/
def Request.directory? (store : Store) : Request → Option (List Char)
  | .text _ => none
  | .file path =>
    match store.read path with
    | .error _ => none
    | .ok _ => parent? path

namespace Session

def perform (s : Session) (store : Store) : Request → Outcome Session
  | .text text => s.parseText store text
  | .file path => s.parseFile store path

/-- The tree or the fault that a request is answered with. -/
def answer (s : Session) (store : Store) (r : Request) : Except Fault Tree :=
  (s.perform store r).result.map (·.building.tree)

/-- A session that has parsed nothing yet, with includes from a directory. -/
def fresh (env : Environment) (base : List Char) : Session where
  env := env
  base := base

/-- The session that requests leave behind, however they were answered. -/
def after (s : Session) (store : Store) (history : List Request) : Session :=
  history.foldl (fun s r => (s.perform store r).state) s

/-- The directory of the last file that could be read, if there was one, or that of the session. -/
def baseAfter (s : Session) (store : Store) (history : List Request) : List Char :=
  (history.filterMap (Request.directory? store)).getLast?.getD s.base

variable {s t : Session} {store : Store}

/-! ## One request -/

theorem env_parseFrom (s : Session) (store : Store) (stack : List (List String))
    (text : List Char) : (s.parseFrom store stack text).state.env = s.env := by
  unfold parseFrom
  split
  · rfl
  · split <;> rfl

theorem base_parseFrom (s : Session) (store : Store) (stack : List (List String))
    (text : List Char) : (s.parseFrom store stack text).state.base = s.base := by
  unfold parseFrom
  split
  · rfl
  · split <;> rfl

theorem env_perform (s : Session) (store : Store) (r : Request) :
    (s.perform store r).state.env = s.env := by
  cases r with
  | text text => exact env_parseFrom s store [] text
  | file path =>
    rw [perform, parseFile]
    cases store.read path with
    | error why => rfl
    | ok found => exact env_parseFrom _ store [found.1] found.2

/-- Only a file that can be read changes where includes start from. -/
theorem base_perform (s : Session) (store : Store) (r : Request) :
    (s.perform store r).state.base = (r.directory? store).getD s.base := by
  cases r with
  | text text => exact base_parseFrom s store [] text
  | file path =>
    rw [perform, parseFile, Request.directory?]
    cases store.read path with
    | error why => rfl
    | ok found => exact base_parseFrom _ store [found.1] found.2

/-! ## Answers -/

/-- A text is parsed from an empty tree. -/
theorem result_parseFrom_congr (henv : s.env = t.env) (hbase : s.base = t.base)
    (stack : List (List String)) (text : List Char) :
    (s.parseFrom store stack text).result.map (·.building.tree)
      = (t.parseFrom store stack text).result.map (·.building.tree) := by
  rw [parseFrom_eq, parseFrom_eq, henv, hbase]

theorem answer_text_congr (henv : s.env = t.env) (hbase : s.base = t.base) (text : List Char) :
    s.answer store (.text text) = t.answer store (.text text) :=
  result_parseFrom_congr henv hbase [] text

/-- A file that can be read lies in a directory, so the one before it does not matter. -/
theorem answer_file_congr (henv : s.env = t.env) (path : List Char) :
    s.answer store (.file path) = t.answer store (.file path) := by
  rw [answer, answer, perform, perform, parseFile, parseFile]
  cases hread : store.read path with
  | error why => rfl
  | ok found =>
    cases hparent : parent? path with
    | none =>
      obtain ⟨why, hwhy⟩ := store.read_of_parent?_eq_none hparent
      rw [hread] at hwhy
      exact absurd hwhy (by simp)
    | some directory =>
      have hdirectory : ({ s with base := directory } : Session).env
          = ({ t with base := directory } : Session).env := henv
      exact result_parseFrom_congr hdirectory rfl _ _

/-! ## Many requests -/

theorem env_after (s : Session) (store : Store) (history : List Request) :
    (s.after store history).env = s.env := by
  induction history generalizing s with
  | nil => rfl
  | cons r rest ih => exact (ih _).trans (env_perform s store r)

theorem base_after (s : Session) (store : Store) (history : List Request) :
    (s.after store history).base = s.baseAfter store history := by
  induction history generalizing s with
  | nil => rfl
  | cons r rest ih =>
    have hrest : (s.after store (r :: rest)).base
        = baseAfter (s.perform store r).state store rest := ih _
    rw [hrest, baseAfter, baseAfter, base_perform, List.filterMap_cons]
    cases r.directory? store with
    | none => rfl
    | some directory =>
      dsimp only
      rw [List.getLast?_cons]
      rfl

/-- After any requests a session answers like one that has parsed nothing yet: about a file as if there
    had been none, and about a text as if includes started from the last file that could be read. -/
theorem answer_after (s : Session) (store : Store) (history : List Request) :
    (∀ path, (s.after store history).answer store (.file path)
        = (fresh s.env s.base).answer store (.file path))
      ∧ ∀ text, (s.after store history).answer store (.text text)
        = (fresh s.env (s.baseAfter store history)).answer store (.text text) := by
  have henv := env_after s store history
  refine ⟨fun path => ?_, fun text => ?_⟩
  · exact answer_file_congr (t := fresh s.env s.base) henv path
  · exact answer_text_congr (t := fresh s.env _) henv (base_after s store history) text

/-- Two files of one name, and one that stands beside the second. -/
def namesakeFiles : Store where
  nodes := [(["x.ucl"], .file "b = 1".toUTF8), (["sub", "main.ucl"], .file "a = 1".toUTF8),
    (["sub", "x.ucl"], .file "b = 2".toUTF8)]

/-- A file that was read before decides which file an include means. -/
theorem answer_after_namesakeFiles :
    let s := Session.new namesakeFiles {}
    let r := Request.text (includeLine "x.ucl".toList)
    s.answer namesakeFiles r = .ok ⟨[("b", .int 1)]⟩
      ∧ (s.after namesakeFiles [.file "sub/main.ucl".toList]).answer namesakeFiles r
          = .ok ⟨[("b", .int 2)]⟩ := by
  have hquotes : ∀ c ∈ "x.ucl".toList, isQuote c = false :=
    fun c hc => Bool.eq_false_iff.mpr (List.any_eq_false.mp rfl c hc)
  have hline : Scan.uncommentedLines (includeLine "x.ucl".toList) = [includeLine "x.ucl".toList] := by
    decide +kernel
  have hbase : ((Session.new namesakeFiles {}).after namesakeFiles
      [.file "sub/main.ucl".toList]).base = "sub".toList := by
    rw [base_after]
    rfl
  -- the line stands for the text of the file that the base leads to
  have hanswer : ∀ {base text : List Char} {key : List String} (bytes : ByteArray),
      namesakeFiles.file? (join base "x.ucl".toList) = some (key, bytes) →
      Store.decodeText bytes = .ok text →
      (∀ line ∈ Scan.uncommentedLines text, isInclude line = false) →
      ((expandIncludes namesakeFiles base [] [includeLine "x.ucl".toList]).bind
          fun lines => (build {} lines).result.map (·.tree))
        = (build {} ((Scan.uncommentedLines text).map trim)).result.map (·.tree) := by
    intro base text key bytes hfile htext hplain
    rw [expandIncludes_includeLine hquotes rfl hfile htext List.not_mem_nil hplain,
      expandIncludes_of_plain namesakeFiles base [] hplain]
    rfl
  refine ⟨?_, ?_⟩
  · rw [answer, perform, parseText, parseFrom_eq, hline]
    refine (hanswer "b = 1".toUTF8 rfl rfl (by decide +kernel)).trans ?_
    with_unfolding_all rfl
  · rw [answer, perform, parseText, parseFrom_eq, hline, env_after, hbase]
    refine (hanswer "b = 2".toUTF8 rfl rfl (by decide +kernel)).trans ?_
    with_unfolding_all rfl

end Session

end ConfigLang
