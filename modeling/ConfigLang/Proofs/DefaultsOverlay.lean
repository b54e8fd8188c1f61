import ConfigLang.Proofs.BlockComment
import ConfigLang.Proofs.Continuation
import ConfigLang.Proofs.DefaultsFilling
import ConfigLang.Proofs.PlainDocument

set_option autoImplicit false

/-! # Defaults overlay a tree

Defaults are written where the tree of a document has nothing, or null. Whatever else the document
says stays as it is, for any defaults behind it, and every default that is not null leaves its path
with a value (`parseText_overlay`). -/

namespace ConfigLang

namespace Tree

/-- Filling in defaults one after another keeps what is there, and leaves each path with a value. -/
theorem fillAll_extends {t filled : Tree} {entries : List (String × Value)}
    (h : t.fillAll entries = .done filled) :
    t.toValue.Extends filled.toValue
      ∧ ∀ path v, (path, v) ∈ entries → v.isNull = false →
        ∃ w, filled.get? path.toList = some w ∧ w.isNull = false := by
  have hkept := (fillAll_keeps t entries).1
  rw [h] at hkept
  refine ⟨hkept, fun path v hmem hsolid => ?_⟩
  obtain ⟨w, hw, hthere⟩ := exists_of_fillAll h hmem
  exact ⟨w, hw, hthere hsolid⟩

end Tree

/-! ## Reading defaults -/

namespace Document

open Text

variable {env : Environment}

theorem exists_of_readDefaults {b b' : Building} {lines : List (List Char)}
    (h : readDefaults env b lines = .done b') :
    ∃ defaults, b' = { b with defaults := defaults } := by
  fun_induction readDefaults env b lines with
  | case1 b => exact ⟨b.defaults, (Outcome.done.inj h).symm⟩
  | case2 => exact absurd h (by simp)
  | case3 => exact absurd h (by simp)
  | case4 => exact absurd h (by simp)
  | case5 b raw rest line hheader hequals path initial hsplit next hrecord ih =>
    obtain ⟨defaults, rfl⟩ := exists_of_recordDefault hrecord
    exact ih h
  | case6 b raw rest line hheader hequals ih => exact ih h

theorem defaults_of_assign {b b' : Building} {key : String} {text : List Char}
    (h : b.assign env key text = .ok b') : b'.defaults = b.defaults := by
  obtain ⟨v, tree, -, -, rfl⟩ := exists_of_assign h
  rfl

/-- Lines that come to no header of defaults record none. -/
theorem defaults_of_readPart {b b' : Building} {lines : List (List Char)}
    (hself : selfContained env b lines = true) (h : readPart env .body b lines = .done b') :
    b'.defaults = b.defaults := by
  revert h
  refine selfContained_induction ?nil ?silent ?header ?malformed ?fault ?statement hself
  case nil =>
    intro b h
    rw [readPart_nil] at h
    rw [Outcome.done.inj h]
  case silent =>
    intro b raw rest hline ih h
    rw [readPart_cons, hline] at h
    exact ih h
  case header =>
    intro b raw rest name hline ih h
    rw [readPart_cons, hline] at h
    exact ih h
  case malformed =>
    intro b raw rest cause hline h
    rw [readPart_cons, hline] at h
    exact absurd h (by simp)
  case fault =>
    intro b raw rest key initial f hline hcloses hassign h
    simp only [readPart_cons, hline, put_body, hassign] at h
    exact absurd h (by simp)
  case statement =>
    intro b raw rest key initial next hline hcloses hassign ih h
    simp only [readPart_cons, hline, put_body, hassign] at h
    rw [ih h, defaults_of_assign hassign]

/-! ## Documents with defaults -/

/-- Building without defaults is reading the lines. -/
theorem readLines_of_build {lines : List (List Char)} {b : Building}
    (hself : selfContained env {} lines = true) (h : build env lines = .done b) :
    readLines env {} lines = .done b := by
  rw [build] at h
  cases hread : readLines env {} lines with
  | stopped b' f => simp [hread] at h
  | done b' =>
    simp only [hread] at h
    rw [← h, applyDefaults_of_nil (defaults_of_readPart hself hread)]

/-- Building with defaults behind the lines fills them in to what the lines build. -/
theorem applyDefaults_of_build {lines more : List (List Char)} {header : List Char}
    {b b' : Building} (hself : selfContained env {} lines = true)
    (hread : readLines env {} lines = .done b)
    (hheader : Line.ofText .body (trim header) = .defaultsHeader)
    (h : build env (lines ++ header :: more) = .done b') :
    b.tree.applyDefaults b'.defaults = .done b'.tree := by
  have hdefaults : readLines env {} (lines ++ header :: more) = readDefaults env b more := by
    have happend := readPart_append hself (header :: more)
    simp only [readPart] at happend
    rw [happend, hread]
    show readPart env .body b (header :: more) = _
    rw [readPart_cons, hheader]
    rfl
  rw [build, hdefaults] at h
  cases hlater : readDefaults env b more with
  | stopped b₂ f => simp [hlater] at h
  | done b₂ =>
    obtain ⟨defaults, rfl⟩ := exists_of_readDefaults hlater
    simp only [hlater, Building.applyDefaults] at h
    split at h
    next tree hfill =>
      rw [← Outcome.done.inj h]
      exact hfill
    next => exact absurd h (by simp)

end Document

open Document Text

namespace Session

/-- Parsing a document builds its lines, with those of the files that it includes. -/
theorem exists_of_parseText {s s' : Session} {store : Files.Store} {text : List Char}
    (h : s.parseText store text = .done s') :
    ∃ lines, expandIncludes store s.base [] (Scan.uncommentedLines text) = .ok lines
      ∧ build s.env lines = .done s'.building := by
  rw [parseText, parseFrom] at h
  split at h
  next => exact absurd h (by simp)
  next lines hexpand =>
    split at h
    next b hbuild =>
      rw [← Outcome.done.inj h]
      exact ⟨lines, hexpand, hbuild⟩
    next => exact absurd h (by simp)

/-- Defaults behind a document lose none of its keys and change none of its values but null, and
    each default that is not null leaves its path with a value. -/
theorem parseText_overlay (store : Files.Store) (s : Session) {text : List Char} (extra : List Char)
    (hplain : ∀ line ∈ Scan.uncommentedLines text, includeWord.isPrefixOf (trim line) = false)
    (hclosed : Scan.leavesBlockOpen text = false)
    (hself : selfContained s.env {} ((Scan.uncommentedLines text).map trim) = true)
    {s₁ s₂ : Session} (h₁ : s.parseText store text = .done s₁)
    (h₂ : s.parseText store (text ++ "\n[Defaults]\n".toList ++ extra) = .done s₂) :
    (∀ path w, s₁.building.tree.lookup path = some w →
        ∃ w', s₂.building.tree.lookup path = some w'
          ∧ (w.isNull = false → w.entries? = none → w' = w))
      ∧ ∀ path d, (path, d) ∈ s₂.building.defaults.entries → d.isNull = false →
        ∃ w, s₂.building.tree.get? path.toList = some w ∧ w.isNull = false := by
  have hwhole : text ++ "\n[Defaults]\n".toList ++ extra
      = text ++ '\n' :: ("[Defaults]".toList ++ '\n' :: extra) := by simp
  have hheader : Scan.uncommentedLines "[Defaults]".toList = ["[Defaults]".toList] := by
    decide +kernel
  have hlines : Scan.uncommentedLines (text ++ "\n[Defaults]\n".toList ++ extra)
      = Scan.uncommentedLines text ++ (["[Defaults]".toList] ++ Scan.uncommentedLines extra) := by
    rw [hwhole, Scan.uncommentedLines_append hclosed,
      Scan.uncommentedLines_append (by decide +kernel), hheader]
  -- the first lines are those of the document alone, and its build is where the others start
  obtain ⟨lines₁, hexpand₁, hbuild₁⟩ := exists_of_parseText h₁
  rw [expandIncludes_of_plain store s.base [] hplain, Except.ok.injEq] at hexpand₁
  subst hexpand₁
  obtain ⟨lines₂, hexpand₂, hbuild₂⟩ := exists_of_parseText h₂
  have hsplit : ∃ more, lines₂
      = (Scan.uncommentedLines text).map trim ++ "[Defaults]".toList :: more := by
    rw [hlines, expandIncludes_append, expandIncludes_of_plain store s.base [] hplain,
      expandIncludes_append, expandIncludes_of_plain store s.base [] (by decide +kernel)]
      at hexpand₂
    cases hmore : expandIncludes store s.base [] (Scan.uncommentedLines extra) with
    | error f =>
      rw [hmore] at hexpand₂
      exact absurd hexpand₂ (by simp [Except.bind, Except.map])
    | ok more =>
      rw [hmore] at hexpand₂
      exact ⟨more, (Except.ok.inj hexpand₂).symm⟩
  obtain ⟨more, rfl⟩ := hsplit
  have hfill := applyDefaults_of_build hself (readLines_of_build hself hbuild₁) (by rfl)
    hbuild₂
  obtain ⟨hextends, hthere⟩ := Tree.fillAll_extends hfill
  refine ⟨fun path w hw => ?_, hthere⟩
  obtain ⟨w', hw', hkept⟩ := Tree.lookup_of_extends hextends hw
  exact ⟨w', hw', fun hsolid => (hkept hsolid).2⟩

/-- A document without includes is parsed if its lines can be built. -/
theorem exists_parseText_of_plain (s : Session) (store : Files.Store) {text : List Char}
    (hplain : ∀ line ∈ Scan.uncommentedLines text, includeWord.isPrefixOf (trim line) = false)
    (hbuild : (build s.env ((Scan.uncommentedLines text).map trim)).result.isOk = true) :
    ∃ s', s.parseText store text = .done s' := by
  rw [parseText, parseFrom, expandIncludes_of_plain store s.base [] hplain]
  dsimp only
  cases hlines : build s.env ((Scan.uncommentedLines text).map trim) with
  | done b => exact ⟨_, rfl⟩
  | stopped b f =>
    rw [hlines] at hbuild
    exact absurd hbuild Bool.false_ne_true

/-- A section with a value of two lines and a null. -/
def serverText : List Char :=
  "[server]\nhost = \"a\"\nports = [80,\n443]\nproxy = null".toList

/-- Defaults for a value that is there, for the null, and for a path that is not there. -/
def serverDefaults : List Char :=
  "server.host = \"b\"\nserver.proxy = host\nserver.limits.open = [1,\n2]".toList

theorem parseText_overlay_serverText :
    (∀ line ∈ Scan.uncommentedLines serverText, includeWord.isPrefixOf (trim line) = false)
      ∧ Scan.leavesBlockOpen serverText = false
      ∧ selfContained {} {} ((Scan.uncommentedLines serverText).map trim) = true
      ∧ ∃ s₁ s₂, ({} : Session).parseText {} serverText = .done s₁
        ∧ ({} : Session).parseText {} (serverText ++ "\n[Defaults]\n".toList ++ serverDefaults)
          = .done s₂
        ∧ (∀ path w, s₁.building.tree.lookup path = some w →
          ∃ w', s₂.building.tree.lookup path = some w'
            ∧ (w.isNull = false → w.entries? = none → w' = w))
        ∧ ∀ path d, (path, d) ∈ s₂.building.defaults.entries → d.isNull = false →
          ∃ w, s₂.building.tree.get? path.toList = some w ∧ w.isNull = false := by
  have hplain : ∀ line ∈ Scan.uncommentedLines serverText,
      includeWord.isPrefixOf (trim line) = false := by decide +kernel
  have hclosed : Scan.leavesBlockOpen serverText = false := by decide +kernel
  have hself : selfContained {} {} ((Scan.uncommentedLines serverText).map trim) = true := by
    decide +kernel
  obtain ⟨s₁, h₁⟩ := exists_parseText_of_plain {} {} hplain (by decide +kernel)
  obtain ⟨s₂, h₂⟩ : ∃ s₂, ({} : Session).parseText {}
      (serverText ++ "\n[Defaults]\n".toList ++ serverDefaults) = .done s₂ :=
    exists_parseText_of_plain {} {} (by decide +kernel) (by decide +kernel)
  exact ⟨hplain, hclosed, hself, s₁, s₂, h₁, h₂,
    parseText_overlay {} {} serverDefaults hplain hclosed hself h₁ h₂⟩

end Session

end ConfigLang
