import ConfigLang.Proofs.BetweenQuotes
import ConfigLang.Proofs.IncludeChains
import ConfigLang.Proofs.PlainDocument

set_option autoImplicit false

/-! # Text in place of an include

A line that includes a file stands for the text of the file. Main statement: where that text includes
nothing itself, a document with the line and the document with the text in its place are parsed alike,
faults included, wherever the line stands (`Session.parseText_include`). Block comments are removed
before any line is read, whatever the quotes around them; so none may begin in the line
(`parseText_include_comment`). -/

namespace ConfigLang

open Text

/-! ## Paths that name no file -/

namespace Files

/-- The root and every path that ends in a slash are left as they are by joining. -/
theorem exists_join_slash (base front : List Char) :
    ∃ front', join base (front ++ ['/']) = front' ++ ['/'] := by
  unfold join
  split
  · exact ⟨front, rfl⟩
  · split
    · exact ⟨base ++ front, by rw [List.append_assoc]⟩
    · exact ⟨base ++ '/' :: front, by rw [List.append_assoc, List.cons_append]⟩

namespace Store

variable {store : Store}

/-- A walk whose last part names nothing ends in a directory. -/
theorem node?_of_walk {key found : List String} {parts : List (List Char)} {last : List Char}
    (hlast : last = [] ∨ last = ['.']) (h : store.walk key (parts ++ [last]) = .ok found) :
    store.node? found = some .directory := by
  induction parts generalizing key with
  | nil =>
    rw [List.nil_append, walk] at h
    split at h
    next => exact absurd h (by simp)
    next => exact absurd h (by simp)
    next hnode =>
      rw [if_pos hlast, walk, Except.ok.injEq] at h
      rw [← h]
      exact hnode
  | cons part rest ih =>
    rw [List.cons_append, walk] at h
    split at h
    next => exact absurd h (by simp)
    next => exact absurd h (by simp)
    next =>
      split at h
      · exact ih h
      · split at h
        · exact ih h
        · split at h
          · exact absurd h (by simp)
          · dsimp only at h
            split at h
            · exact ih h
            · exact absurd h (by simp)

theorem fileAt?_of_directory {key : List String} (h : store.node? key = some .directory) :
    store.fileAt? key = none := by
  unfold fileAt?
  split
  next hlookup =>
    rw [node?, hlookup] at h
    exact absurd h (by simp)
  next => rfl

theorem walk_of_locate {path : List Char} {key : List String} (h : store.locate path = .ok key) :
    store.walk [] (splitOn '/' (join store.workingDirectory path)) = .ok key := by
  unfold locate at h
  split at h
  · exact absurd h (by simp)
  · split at h
    · exact absurd h (by simp)
    · split at h
      · exact absurd h (by simp)
      · exact h

theorem file?_of_slash (front : List Char) : store.file? (front ++ ['/']) = none := by
  obtain ⟨path, hpath⟩ := exists_join_slash store.workingDirectory front
  unfold file?
  split
  next => rfl
  next key hlocate =>
    have hwalk := walk_of_locate hlocate
    have hparts : splitOn '/' (path ++ ['/']) = splitOn '/' path ++ [[]] :=
      splitOn_append_mark '/' path []
    rw [hpath, hparts] at hwalk
    rw [fileAt?_of_directory (node?_of_walk (Or.inl rfl) hwalk), Option.map_none]

theorem file?_nil : store.file? [] = none := by
  have hlocate : store.locate [] = .error .notFound := rfl
  rw [file?, hlocate]

end Store

end Files

namespace Document

open Files

/-- Nothing at all names no file. -/
theorem file?_join_nil (store : Store) (base : List Char) : store.file? (join base []) = none := by
  rw [join, if_neg (by decide)]
  split
  next h =>
    rw [List.append_nil]
    rcases Bool.or_eq_true_iff.mp h with hempty | hslash
    · rw [List.isEmpty_iff.mp hempty]
      exact Store.file?_nil
    · obtain ⟨front, rfl⟩ := List.getLast?_eq_some_iff.mp (beq_iff_eq.mp hslash)
      exact Store.file?_of_slash front
  next => exact Store.file?_of_slash base

/-! ## The line that includes a path -/

/-- The line that includes a path. -/
def includeLine (name : List Char) : List Char :=
  includeWord ++ '"' :: (name ++ ['"'])

section

variable {name : List Char}

theorem trim_includeLine (name : List Char) : trim (includeLine name) = includeLine name := by
  apply trim_eq_self
  · intro c hc
    obtain rfl : 'i' = c := Option.some.inj hc
    rfl
  · intro c hc
    rw [includeLine, ← List.cons_append, ← List.append_assoc, List.getLast?_concat] at hc
    obtain rfl : '"' = c := Option.some.inj hc
    rfl

theorem isInclude_includeLine (name : List Char) : isInclude (includeLine name) = true := by
  rw [isInclude, trim_includeLine, List.isPrefixOf_iff_prefix]
  exact List.prefix_append _ _

theorem includedPath?_includeLine (hne : name ≠ []) (hquotes : ∀ c ∈ name, isQuote c = false) :
    includedPath? (includeLine name) = some name := by
  have hbehind : behind? "include".toList (includeLine name) = some (' ' :: '"' :: (name ++ ['"'])) :=
    rfl
  have hstart : trimStart (' ' :: '"' :: (name ++ ['"'])) = '"' :: (name ++ ['"']) := rfl
  have htake : (name ++ ['"']).takeWhile (!isQuote ·) = name := by
    rw [List.takeWhile_append_of_pos fun c hc => by rw [hquotes c hc]; rfl]
    exact List.append_nil name
  have hpath : (isQuote '"' && !name.isEmpty && name.length < (name ++ ['"']).length) = true := by
    simp [isQuote, hne]
  rw [includedPath?, hbehind, Option.map_some, hstart]
  dsimp only
  rw [htake, if_pos hpath]

/-- Between the quotes of the line no comment begins. -/
theorem stripLineComment_includeLine (hquotes : ∀ c ∈ name, isQuote c = false) :
    Scan.stripLineComment (includeLine name) = includeLine name := by
  have hspan : ((({} : Scan.Quotes).scan includeWord).step '"').span? = some '"' := rfl
  have hclosing : '"' ∉ name := fun hmem => absurd (hquotes '"' hmem) (by decide)
  obtain ⟨hhides, hopen⟩ := Scan.Quotes.hides_in_span hspan hclosing
  have hquoted : (({} : Scan.Quotes).scan includeWord).hides ('"' :: (name ++ ['"'])) = true := by
    rw [Scan.Quotes.hides, Scan.Quotes.outside_of_isQuote _ rfl, Scan.Quotes.hides_append, hhides,
      Scan.Quotes.hides, Scan.Quotes.outside_of_span hopen]
    rfl
  have hword : Scan.cutUnquoted? (· == '/') includeWord = none := rfl
  apply Scan.stripLineComment_of_cut
  rw [includeLine, Scan.cutUnquoted?, Scan.cutWhen?_scan hword, Scan.cutWhen?_of_hides hquoted,
    Option.map_none]

theorem newline_not_mem_includeLine (h : '\n' ∉ name) : '\n' ∉ includeLine name := by
  simp only [includeLine, List.mem_append, List.mem_cons, List.not_mem_nil, or_false, not_or]
  exact ⟨by decide, by decide, h, by decide⟩

/-- Where no block comment begins in the line, it stays a line. -/
theorem uncommentedLines_includeLine (hquotes : ∀ c ∈ name, isQuote c = false)
    (hline : '\n' ∉ name) {rest : List Char}
    (hblocks : Scan.stripBlocks (includeLine name ++ '\n' :: rest)
      = includeLine name ++ '\n' :: Scan.stripBlocks rest) :
    Scan.uncommentedLines (includeLine name ++ '\n' :: rest)
      = includeLine name :: Scan.uncommentedLines rest := by
  rw [Scan.uncommentedLines, hblocks, splitOn_append_cons (newline_not_mem_includeLine hline),
    List.map_cons, stripLineComment_includeLine hquotes]
  rfl

end

/-! ## Expanding -/

/-- A line that includes a file without further includes stands for the lines of the file. -/
theorem expandIncludes_includeLine {store : Store} {base name target text : List Char}
    {stack : List (List String)} {key : List String} {bytes : ByteArray}
    (hquotes : ∀ c ∈ name, isQuote c = false)
    (htarget : includeTarget store base name = .ok target)
    (hfile : store.file? target = some (key, bytes))
    (htext : Store.decodeText bytes = .ok text) (hkey : key ∉ stack)
    (hplain : ∀ line ∈ Scan.uncommentedLines text, isInclude line = false) :
    expandIncludes store base stack [includeLine name]
      = expandIncludes store base stack (Scan.uncommentedLines text) := by
  have hne : name ≠ [] := by
    rintro rfl
    obtain rfl : join base [] = target := Except.ok.inj htarget
    exact absurd (hfile.symm.trans (file?_join_nil store base)) (by simp)
  have hpath : includedPath? (trim (includeLine name)) = some name := by
    rw [trim_includeLine, includedPath?_includeLine hne hquotes]
  rw [expandIncludes_inclusion (isInclude_includeLine name)
      (inclusion?_eq_some hpath htarget hfile htext) hkey, expandIncludes_of_plain store base stack hplain]
  exact expandIncludes_of_plain store _ _ hplain

end Document

open Document Files

/-! ## Parsing -/

/-- Including a file is putting its text in place of the line, wherever the line stands: the session
    comes to the same, or stops with the same fault. -/
theorem Session.parseText_include (s : Session) (store : Store)
    {front text back name target : List Char} {key : List String} {bytes : ByteArray}
    (hfront : Scan.leavesBlockOpen front = false)
    (htext : Scan.leavesBlockOpen text = false)
    (hplain : ∀ line ∈ Scan.uncommentedLines text, isInclude line = false)
    (hquotes : ∀ c ∈ name, isQuote c = false) (hline : '\n' ∉ name)
    (hblocks : Scan.stripBlocks (includeLine name ++ '\n' :: back)
      = includeLine name ++ '\n' :: Scan.stripBlocks back)
    (htarget : includeTarget store s.base name = .ok target)
    (hfile : store.file? target = some (key, bytes))
    (hbytes : Store.decodeText bytes = .ok text) :
    s.parseText store (front ++ '\n' :: (includeLine name ++ '\n' :: back))
      = s.parseText store (front ++ '\n' :: (text ++ '\n' :: back)) := by
  have hexpand := expandIncludes_includeLine hquotes htarget hfile hbytes List.not_mem_nil hplain
  have hlines : expandIncludes store s.base []
        (Scan.uncommentedLines (includeLine name ++ '\n' :: back))
      = expandIncludes store s.base [] (Scan.uncommentedLines (text ++ '\n' :: back)) := by
    rw [uncommentedLines_includeLine hquotes hline hblocks, Scan.uncommentedLines_append htext,
      expandIncludes_cons, expandIncludes_append, hexpand]
  rw [Session.parseText, Session.parseText, Session.parseFrom, Session.parseFrom,
    Scan.uncommentedLines_append hfront, Scan.uncommentedLines_append hfront,
    expandIncludes_append, hlines, ← expandIncludes_append]

/-- A file with two items of an array. -/
def itemFiles : Store where
  nodes := [(["items"], .file "1,\n2".toUTF8)]

theorem Session.parseText_include_items :
    includeLine "items".toList = "include \"items\"".toList
      ∧ (Session.new itemFiles {}).parseText itemFiles "[a]\nk = [\ninclude \"items\"\n]".toList
        = (Session.new itemFiles {}).parseText itemFiles "[a]\nk = [\n1,\n2\n]".toList := by
  have htarget : includeTarget itemFiles (Session.new itemFiles {}).base "items".toList
      = .ok "/items".toList := rfl
  have hfile : itemFiles.file? "/items".toList = some (["items"], "1,\n2".toUTF8) := rfl
  have hbytes : Store.decodeText "1,\n2".toUTF8 = .ok "1,\n2".toList := rfl
  have hquotes : ∀ c ∈ "items".toList, isQuote c = false :=
    fun c hc => Bool.eq_false_iff.mpr (List.any_eq_false.mp rfl c hc)
  refine ⟨rfl, ?_⟩
  exact @Session.parseText_include (Session.new itemFiles {}) itemFiles "[a]\nk = [".toList _
    "]".toList _ _ _ _ (by decide +kernel) (by decide +kernel) (by decide +kernel) hquotes
    (by decide +kernel) (by decide +kernel) htarget hfile hbytes

/-- A file whose path holds the beginning of a block comment. -/
def starredFiles : Store where
  nodes := [(["a", "*b"], .file "x = 1".toUTF8)]

/-- A block comment that begins in the path and ends behind the line takes the line apart. -/
theorem parseText_include_comment :
    includeTarget starredFiles starredFiles.workingDirectory "a/*b".toList = .ok "/a/*b".toList
      ∧ starredFiles.file? "/a/*b".toList = some (["a", "*b"], "x = 1".toUTF8)
      ∧ Store.decodeText "x = 1".toUTF8 = .ok "x = 1".toList
      ∧ (∀ line ∈ Scan.uncommentedLines "x = 1".toList, isInclude line = false)
      ∧ (∀ c ∈ "a/*b".toList, isQuote c = false)
      ∧ parseText starredFiles {} ([] ++ '\n' :: (includeLine "a/*b".toList ++ '\n' :: "// */".toList))
        = .error (.malformed (.includeForm "include \"a"))
      ∧ parseText starredFiles {} ([] ++ '\n' :: ("x = 1".toList ++ '\n' :: "// */".toList))
        = .ok ⟨[("x", .int 1)]⟩ := by
  have hquotes : ∀ c ∈ "a/*b".toList, isQuote c = false :=
    fun c hc => Bool.eq_false_iff.mpr (List.any_eq_false.mp rfl c hc)
  refine ⟨rfl, rfl, rfl, by decide +kernel, hquotes, ?_, ?_⟩
  · have hlines : Scan.uncommentedLines
        ([] ++ '\n' :: (includeLine "a/*b".toList ++ '\n' :: "// */".toList))
        = [[], "include \"a".toList] := by decide +kernel
    have hform : expandIncludes starredFiles starredFiles.workingDirectory []
        ["include \"a".toList] = .error (.malformed (.includeForm "include \"a")) := by
      rw [expandIncludes, if_pos (by decide +kernel)]
      rfl
    rw [parseText_eq, hlines, expandIncludes_cons, expandIncludes_plain (by decide +kernel), hform]
    rfl
  · have hlines : Scan.uncommentedLines ([] ++ '\n' :: ("x = 1".toList ++ '\n' :: "// */".toList))
        = [[], "x = 1".toList, []] := by decide +kernel
    rw [parseText_eq, hlines, expandIncludes_of_plain _ _ _ (by decide +kernel)]
    with_unfolding_all rfl

end ConfigLang
