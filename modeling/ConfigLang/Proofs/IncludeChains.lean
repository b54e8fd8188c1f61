import ConfigLang.Document.Include

set_option autoImplicit false

/-! # Chains of included files

A file that is included may include further files, and so on. Expanding follows these chains, and
stops at the first line that cannot be expanded. Main statement: expanding comes to an end, and it
succeeds exactly if every chain from the given lines leads from file to file without coming to one
twice, and every line on the way that is to include a file can do so (`expandIncludes_chains`). -/

namespace ConfigLang.Document

open Files Text

/-! ## What a line includes -/

/-- Lines, and the directory from which the paths that they include start. -/
structure Source where
  base : List Char
  lines : List (List Char)

/-- A file that is included: its key, and what is read of it. -/
structure Inclusion where
  key : List String
  source : Source

/-- Whether a line is to include a file. -/
def isInclude (raw : List Char) : Bool :=
  includeWord.isPrefixOf (trim raw)

/-- What is read of the file at the end of a path: its own includes start from where it stands. -/
def sourceOf (base target text : List Char) : Source where
  base := (parent? target).getD base
  lines := Scan.uncommentedLines text

/-- The file that a line includes: the line names it in quotes, it is there, and it holds text. -/
def inclusion? (store : Store) (base raw : List Char) : Option Inclusion :=
  match includedPath? (trim raw) with
  | none => none
  | some path =>
    match includeTarget store base path with
    | .error _ => none
    | .ok target =>
      match store.file? target with
      | none => none
      | some (key, bytes) =>
        match Store.decodeText bytes with
        | .error _ => none
        | .ok text => some ⟨key, sourceOf base target text⟩

theorem inclusion?_eq_some {store : Store} {base raw path target text : List Char}
    {key : List String} {bytes : ByteArray} (hpath : includedPath? (trim raw) = some path)
    (htarget : includeTarget store base path = .ok target)
    (hfile : store.file? target = some (key, bytes)) (htext : Store.decodeText bytes = .ok text) :
    inclusion? store base raw = some ⟨key, sourceOf base target text⟩ := by
  rw [inclusion?, hpath]
  dsimp only
  rw [htarget]
  dsimp only
  rw [hfile]
  dsimp only
  rw [htext]

theorem exists_of_inclusion? {store : Store} {base raw : List Char} {file : Inclusion}
    (h : inclusion? store base raw = some file) :
    ∃ path target key bytes text, includedPath? (trim raw) = some path
      ∧ includeTarget store base path = .ok target ∧ store.file? target = some (key, bytes)
      ∧ Store.decodeText bytes = .ok text ∧ file = ⟨key, sourceOf base target text⟩ := by
  unfold inclusion? at h
  split at h
  next => exact absurd h (by simp)
  next path hpath =>
    split at h
    next => exact absurd h (by simp)
    next target htarget =>
      split at h
      next => exact absurd h (by simp)
      next key bytes hheld =>
        split at h
        next => exact absurd h (by simp)
        next text htext =>
          exact ⟨path, target, key, bytes, text, hpath, htarget, hheld, htext,
            (Option.some.inj h).symm⟩

theorem mem_keys_of_inclusion? {store : Store} {base raw : List Char} {file : Inclusion}
    (h : inclusion? store base raw = some file) : file.key ∈ store.nodes.map Prod.fst := by
  obtain ⟨path, target, key, bytes, text, -, -, hheld, -, rfl⟩ := exists_of_inclusion? h
  exact Store.mem_keys_of_file? hheld

/-- A chain of includes: the keys of the files that lead from a source to another one. -/
inductive Chain (store : Store) : Source → List (List String) → Source → Prop where
  | nil (source : Source) : Chain store source [] source
  | cons {source found : Source} {raw : List Char} {file : Inclusion} {keys : List (List String)}
      (hline : raw ∈ source.lines) (hword : isInclude raw = true)
      (hfile : inclusion? store source.base raw = some file)
      (h : Chain store file.source keys found) : Chain store source (file.key :: keys) found

/-! ## Expanding one line -/

variable {store : Store} {base : List Char} {stack : List (List String)}

/-- A line that includes nothing is kept, trimmed. -/
theorem expandIncludes_plain {raw : List Char} (h : isInclude raw = false) :
    expandIncludes store base stack [raw] = .ok [trim raw] :=
  expandIncludes_of_plain store base stack (List.forall_mem_singleton.mpr h)

/-- A line that includes a file stands for what expanding the file gives. -/
theorem expandIncludes_inclusion {raw : List Char} {file : Inclusion} (hword : isInclude raw = true)
    (hfile : inclusion? store base raw = some file) (hkey : file.key ∉ stack) :
    expandIncludes store base stack [raw]
      = expandIncludes store file.source.base (file.key :: stack) file.source.lines := by
  obtain ⟨path, target, key, bytes, text, hpath, htarget, hheld, htext, rfl⟩ :=
    exists_of_inclusion? hfile
  rw [isInclude] at hword
  rw [expandIncludes, if_pos hword, hpath]
  dsimp only
  rw [htarget]
  dsimp only
  split
  next hnone => exact absurd (hheld.symm.trans hnone) (by simp)
  next hsome =>
    obtain ⟨rfl, rfl⟩ := Prod.mk.inj (Option.some.inj (hheld.symm.trans hsome))
    rw [dif_neg hkey, htext]
    dsimp only [sourceOf]
    rw [expandIncludes.eq_1 store base]
    cases expandIncludes store _ (key :: stack) _ with
    | error f => rfl
    | ok nested => simp [bind, Except.bind, pure, Except.pure]

/-- A line cannot be expanded if its path starts from a home directory that is unknown. -/
theorem expandIncludes_unknownHome {raw path rest : List Char} (hword : isInclude raw = true)
    (hpath : includedPath? (trim raw) = some path) (htilde : behind? ['~', '/'] path = some rest)
    (hhome : store.home = none) :
    expandIncludes store base stack [raw] = .error (.file (String.ofList path) .unknownHome) := by
  have htarget : includeTarget store base path = .error (.file (String.ofList path) .unknownHome) :=
    includeTarget_eq_error_iff.mpr ⟨hhome, ⟨rest, htilde⟩, rfl⟩
  rw [isInclude] at hword
  rw [expandIncludes, if_pos hword, hpath]
  dsimp only
  rw [htarget]

/-- A line that is to include a file can be expanded only if it includes one, and one that is not
    being expanded. -/
theorem exists_inclusion {raw : List Char} (hword : isInclude raw = true)
    (h : (expandIncludes store base stack [raw]).isOk = true) :
    ∃ file, inclusion? store base raw = some file ∧ file.key ∉ stack := by
  rw [isInclude] at hword
  rw [expandIncludes, if_pos hword] at h
  split at h
  next => exact absurd h Bool.false_ne_true
  next path hpath =>
    dsimp only at h
    split at h
    next => exact absurd h Bool.false_ne_true
    next target htarget =>
      split at h
      next => exact absurd h Bool.false_ne_true
      next key bytes hheld =>
        split at h
        next => exact absurd h Bool.false_ne_true
        next hkey =>
          split at h
          next => exact absurd h Bool.false_ne_true
          next text htext => exact ⟨_, inclusion?_eq_some hpath htarget hheld htext, hkey⟩

/-! ## Expanding all lines -/

theorem isOk_bind_append {first second : Except Fault (List (List Char))} :
    (first.bind fun nested => second.map (nested ++ ·)).isOk = (first.isOk && second.isOk) := by
  cases first <;> cases second <;> rfl

theorem isOk_expandIncludes_append (lines more : List (List Char)) :
    (expandIncludes store base stack (lines ++ more)).isOk
      = ((expandIncludes store base stack lines).isOk
        && (expandIncludes store base stack more).isOk) := by
  rw [expandIncludes_append, isOk_bind_append]

/-- Lines can be expanded if each of them can. -/
theorem isOk_expandIncludes_iff (lines : List (List Char)) :
    (expandIncludes store base stack lines).isOk = true
      ↔ ∀ raw ∈ lines, (expandIncludes store base stack [raw]).isOk = true := by
  induction lines with
  | nil =>
    rw [expandIncludes]
    exact ⟨fun _ _ hmem => absurd hmem List.not_mem_nil, fun _ => rfl⟩
  | cons raw rest ih =>
    rw [expandIncludes_cons, isOk_bind_append, Bool.and_eq_true, ih, List.forall_mem_cons]

/-! ## Nesting -/

/-- Expanding a source nests at most `depth` deep: each file that one of its lines leads into is
    expanded on its own, and that nests less deep. -/
inductive NestsWithin (store : Store) : Nat → List (List String) → Source → Prop where
  | intro {depth : Nat} {stack : List (List String)} {source : Source}
      (h : ∀ raw ∈ source.lines, isInclude raw = true →
        ∀ file, inclusion? store source.base raw = some file → file.key ∉ stack →
          NestsWithin store depth (file.key :: stack) file.source) :
      NestsWithin store (depth + 1) stack source

/-- Expanding nests no deeper than there are files left to expand. -/
theorem nestsWithin_of_le {depth : Nat} (h : unexpanded store stack ≤ depth) (source : Source) :
    NestsWithin store (depth + 1) stack source := by
  induction depth generalizing stack source with
  | zero =>
    refine .intro fun raw _ _ file hfile hkey => ?_
    have hlt := unexpanded_cons_lt (mem_keys_of_inclusion? hfile) hkey
    omega
  | succ depth ih =>
    refine .intro fun raw _ _ file hfile hkey => ih ?_ file.source
    have hlt := unexpanded_cons_lt (mem_keys_of_inclusion? hfile) hkey
    omega

/-- What expanding leaves includes no file any more. -/
theorem not_include_of_expandIncludes {depth : Nat} {source : Source}
    (hnests : NestsWithin store depth stack source) {out : List (List Char)}
    (h : expandIncludes store source.base stack source.lines = .ok out) :
    ∀ line ∈ out, includeWord.isPrefixOf line = false := by
  induction hnests generalizing out with
  | @intro depth stack source hfiles ih =>
    obtain ⟨base, lines⟩ := source
    dsimp only at h hfiles ih
    induction lines generalizing out with
    | nil =>
      rw [expandIncludes] at h
      rw [← Except.ok.inj h]
      exact fun _ hmem => absurd hmem List.not_mem_nil
    | cons raw rest ihRest =>
      rw [expandIncludes_cons] at h
      obtain ⟨nested, hfirst, hmap⟩ := exists_of_bind h
      obtain ⟨others, hothers, rfl⟩ := exists_of_map hmap
      have hrest := ihRest (fun line hline => hfiles line (List.mem_cons_of_mem _ hline))
        (fun line hline => ih line (List.mem_cons_of_mem _ hline)) hothers
      have hline : ∀ line ∈ nested, includeWord.isPrefixOf line = false := by
        cases hword : isInclude raw with
        | false =>
          rw [expandIncludes_plain hword, Except.ok.injEq] at hfirst
          rw [← hfirst]
          exact List.forall_mem_singleton.mpr hword
        | true =>
          obtain ⟨file, hfile, hkey⟩ := exists_inclusion hword (by rw [hfirst]; rfl)
          rw [expandIncludes_inclusion hword hfile hkey] at hfirst
          exact ih raw List.mem_cons_self hword file hfile hkey hfirst
      exact List.forall_mem_append.mpr ⟨hline, hrest⟩

/-! ## Chains -/

/-- Whether a source can be expanded as far as chains of includes can tell: each line on a chain that
    is to include a file can do so, and no chain comes to a file twice, nor to one that is being
    expanded. -/
def FollowsThrough (store : Store) (stack : List (List String)) (source : Source) : Prop :=
  ∀ keys found, Chain store source keys found →
    (∀ raw ∈ found.lines, isInclude raw = true → (inclusion? store found.base raw).isSome = true)
      ∧ keys.Nodup ∧ ∀ key ∈ keys, key ∉ stack

/-- Where a source can be expanded, every chain from it leads to lines that can be. -/
theorem followsThrough_of_isOk {source : Source}
    (h : (expandIncludes store source.base stack source.lines).isOk = true) :
    FollowsThrough store stack source := by
  intro keys found hchain
  induction hchain generalizing stack with
  | nil source =>
    refine ⟨fun raw hraw hword => ?_, List.nodup_nil, fun _ hmem => absurd hmem List.not_mem_nil⟩
    obtain ⟨file, hfile, -⟩ :=
      exists_inclusion hword ((isOk_expandIncludes_iff source.lines).mp h raw hraw)
    rw [hfile]
    rfl
  | @cons source found raw file keys hline hword hfile hchain ih =>
    have hraw := (isOk_expandIncludes_iff source.lines).mp h raw hline
    obtain ⟨file', hfile', hkey⟩ := exists_inclusion hword hraw
    obtain rfl := Option.some.inj (hfile.symm.trans hfile')
    rw [expandIncludes_inclusion hword hfile hkey] at hraw
    obtain ⟨hlines, hnodup, hfresh⟩ := ih hraw
    refine ⟨hlines, List.nodup_cons.mpr ⟨fun hagain => ?_, hnodup⟩, ?_⟩
    · exact hfresh _ hagain List.mem_cons_self
    · exact List.forall_mem_cons.mpr ⟨hkey, fun key hmem hstack =>
        hfresh key hmem (List.mem_cons_of_mem _ hstack)⟩

/-- Behind a line that includes a file, chains go on from the file. -/
theorem FollowsThrough.nested {source : Source} (h : FollowsThrough store stack source)
    {raw : List Char} (hline : raw ∈ source.lines) (hword : isInclude raw = true)
    {file : Inclusion} (hfile : inclusion? store source.base raw = some file) :
    file.key ∉ stack ∧ FollowsThrough store (file.key :: stack) file.source := by
  have hcons : ∀ keys found, Chain store file.source keys found →
      Chain store source (file.key :: keys) found :=
    fun keys found hchain => .cons hline hword hfile hchain
  constructor
  · obtain ⟨-, -, hfresh⟩ := h _ _ (hcons _ _ (.nil file.source))
    exact hfresh file.key List.mem_cons_self
  · intro keys found hchain
    obtain ⟨hlines, hnodup, hfresh⟩ := h _ _ (hcons _ _ hchain)
    rw [List.nodup_cons] at hnodup
    refine ⟨hlines, hnodup.2, fun key hmem hstack => ?_⟩
    rcases List.mem_cons.mp hstack with rfl | hbelow
    · exact hnodup.1 hmem
    · exact hfresh key (List.mem_cons_of_mem _ hmem) hbelow

theorem isOk_of_followsThrough {depth : Nat} {source : Source}
    (hnests : NestsWithin store depth stack source) (h : FollowsThrough store stack source) :
    (expandIncludes store source.base stack source.lines).isOk = true := by
  induction hnests with
  | @intro depth stack source _ ih =>
    rw [isOk_expandIncludes_iff]
    intro raw hraw
    cases hword : isInclude raw with
    | false =>
      rw [expandIncludes_plain hword]
      rfl
    | true =>
      obtain ⟨hlines, -, -⟩ := h [] source (.nil source)
      obtain ⟨file, hfile⟩ := Option.isSome_iff_exists.mp (hlines raw hraw hword)
      obtain ⟨hkey, hnested⟩ := h.nested hraw hword hfile
      rw [expandIncludes_inclusion hword hfile hkey]
      exact ih raw hraw hword file hfile hkey hnested

/-- Expanding comes to an end: it nests no deeper than there are files that are not being expanded.
    It succeeds exactly if chains of includes follow through, where lines do not depend on what others
    have included, and what it leaves includes no file any more. -/
theorem expandIncludes_chains (store : Store) (stack : List (List String)) (source : Source) :
    NestsWithin store (unexpanded store stack + 1) stack source
      ∧ ((expandIncludes store source.base stack source.lines).isOk = true
        ↔ FollowsThrough store stack source)
      ∧ (∀ more, (expandIncludes store source.base stack (source.lines ++ more)).isOk
        = ((expandIncludes store source.base stack source.lines).isOk
          && (expandIncludes store source.base stack more).isOk))
      ∧ ∀ out, expandIncludes store source.base stack source.lines = .ok out →
        ∀ line ∈ out, includeWord.isPrefixOf line = false := by
  have hnests := nestsWithin_of_le (Nat.le_refl (unexpanded store stack)) source
  exact ⟨hnests, ⟨followsThrough_of_isOk, isOk_of_followsThrough hnests⟩,
    isOk_expandIncludes_append source.lines, fun _ => not_include_of_expandIncludes hnests⟩

end ConfigLang.Document
