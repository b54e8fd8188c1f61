import ConfigLang.Proofs.AccessorTexts

set_option autoImplicit false

/-! # References through arrays and objects

Behind its path a reference may have accessors: the places of items, as numbers, and the keys of
members, in quotes. Main statement: it resolves to the value that is reached from the value at its
path, one accessor after another, or fails with the code of the first accessor that leads nowhere
(`Scope.resolveReference_accessors`). -/

namespace ConfigLang

open Document (Balanced)

/-! ## Codes of faults -/

section

variable {ε ε' α β : Type} {code : ε → ε'} {x y : Except ε α}

theorem mapError_bind (x : Except ε α) (next : α → Except ε β) :
    (x.bind next).mapError code = (x.mapError code).bind fun a => (next a).mapError code := by
  cases x <;> rfl

theorem mapError_bind_congr {next other : α → Except ε β} (h : x.mapError code = y.mapError code)
    (hnext : ∀ a, (next a).mapError code = (other a).mapError code) :
    (x.bind next).mapError code = (y.bind other).mapError code := by
  rw [mapError_bind, mapError_bind, h, funext hnext]

theorem eq_ok_of_mapError_eq {a : α} (h : x.mapError code = y.mapError code) (hx : x = .ok a) :
    y = .ok a := by
  rw [hx] at h
  cases y with
  | error e => exact absurd h (by simp [Except.mapError])
  | ok b => rw [Except.ok.inj h]

end

/-! ## Accessors -/

/-- The place of an item of an array, or the key of a member of an object. -/
inductive Accessor where
  | index (n : Nat)
  | key (name : String)

namespace Accessor

/-- What a reference holds between the brackets of an accessor. -/
def content : Accessor → List Char
  | .index n => Number.digitsOf n
  | .key name => '"' :: (name.toList ++ ['"'])

/-- An accessor as it is written. -/
def text (a : Accessor) : List Char :=
  inBrackets a.content

/-- An accessor that can be told apart from what stands around it: a key closes the brackets that it
    opens, and no quote stands at its ends. -/
def IsTellable : Accessor → Prop
  | .index _ => True
  | .key name => Balanced name.toList ∧ (∀ c ∈ name.toList.head?, Text.isQuote c = false)
    ∧ ∀ c ∈ name.toList.getLast?, Text.isQuote c = false

/-- The value that an accessor leads to, or the code of the fault if it leads nowhere: 502 beyond the
    end of an array, 503 for a place in another value, 505 for a missing key, 504 for a key of
    another value. -/
def pick : Accessor → Value → Except Nat Value
  | .index n, .array items => (items[n]?).elim (.error 502) .ok
  | .index _, _ => .error 503
  | .key name, .object entries => (entries.lookup name).elim (.error 505) .ok
  | .key _, _ => .error 504

/-- The value that accessors lead to, one after another, or the code of the first that leads
    nowhere. -/
def walk : List Accessor → Value → Except Nat Value
  | [], v => .ok v
  | a :: rest, v => (a.pick v).bind (walk rest)

/-! ## Reading them back -/

theorem isDigits_content (n : Nat) : Number.isDigits (content (.index n)) = true :=
  Number.isDigits_digitsOf n

theorem isDigits_content_key (name : String) : Number.isDigits (content (.key name)) = false :=
  rfl

/-- The quotes around a key are trimmed, and nothing else. -/
theorem trimQuotes_content {name : String} (h : (key name).IsTellable) :
    trimQuotes (content (.key name)) = name.toList := by
  obtain ⟨-, hhead, hlast⟩ := h
  have hquote : Text.isQuote '"' = true := rfl
  rw [trimQuotes, content, List.dropWhile_cons_of_pos hquote]
  rcases List.eq_nil_or_concat name.toList with hnil | ⟨front, last, hname⟩
  · rw [hnil]
    rfl
  · rw [List.concat_eq_append] at hname
    have hfirst : (name.toList ++ ['"']).dropWhile Text.isQuote = name.toList ++ ['"'] := by
      cases hchars : name.toList with
      | nil => simp [hchars] at hname
      | cons c rest =>
        exact List.dropWhile_cons_of_neg (by simp [hhead c (by rw [hchars]; rfl)])
    have hend : Text.isQuote last = false := hlast last (by rw [hname, List.getLast?_concat]; rfl)
    rw [hfirst, List.reverse_append, List.reverse_singleton, List.singleton_append,
      List.dropWhile_cons_of_pos hquote, hname, List.reverse_append, List.reverse_singleton,
      List.singleton_append, List.dropWhile_cons_of_neg (by simp [hend]), List.reverse_cons,
      List.reverse_reverse]

theorem balanced_content {a : Accessor} (h : a.IsTellable) : Balanced a.content := by
  cases a with
  | index n =>
    have hdigit : ∀ c ∈ Number.digitsOf n, c.isDigit = true := fun c hc =>
      Number.isDigit_of_mem_digitsOf hc
    exact .of_not_mem (fun hmem => absurd (hdigit _ hmem) (by decide))
      fun hmem => absurd (hdigit _ hmem) (by decide)
  | key name =>
    have hquote : Balanced ['"'] := .of_not_mem (by decide) (by decide)
    exact hquote.append (h.1.append hquote)

/-- What is read between the brackets leads where the accessor leads. -/
theorem access_content {a : Accessor} (h : a.IsTellable) (v : Value) (whole : List Char) :
    (v.access a.content whole).mapError Fault.code = a.pick v := by
  cases a with
  | index n =>
    rw [Value.access, if_pos (isDigits_content n)]
    cases v with
    | array items =>
      have hplace : Number.ofDigits (content (.index n)) = n := Number.ofDigits_digitsOf n
      simp only [Value.items?, hplace, pick]
      cases items[n]? <;> rfl
    | _ => rfl
  | key name =>
    rw [Value.access, isDigits_content_key, if_neg Bool.false_ne_true, trimQuotes_content h,
      String.ofList_toList]
    cases v with
    | object entries =>
      simp only [Value.entries?, pick]
      cases entries.lookup name <;> rfl
    | _ => rfl

theorem foldlM_access {accessors : List Accessor} (h : ∀ a ∈ accessors, a.IsTellable) (v : Value)
    (whole : List Char) :
    ((accessors.map content).foldlM (fun (v : Value) accessor => v.access accessor whole) v).mapError
        Fault.code
      = walk accessors v := by
  induction accessors generalizing v with
  | nil => rfl
  | cons a rest ih =>
    rw [List.forall_mem_cons] at h
    rw [walk, ← access_content h.1 v whole]
    refine (mapError_bind (v.access a.content whole) _).trans ?_
    exact congrArg _ (funext (ih h.2))

theorem flatMap_text (accessors : List Accessor) :
    accessors.flatMap text = (accessors.map content).flatMap inBrackets := by
  rw [List.flatMap_map]
  rfl

end Accessor

/-! ## References -/

namespace Scope

/-- A path leads from the root, or else from the current section. -/
theorem find?_eq (scope : Scope) (path : List String) :
    scope.find? path
      = (scope.tree.lookup path).or (scope.tree.lookup (scope.sectionPath ++ path)) := by
  rw [find?]
  cases hroot : scope.tree.lookup path with
  | some v => rfl
  | none =>
    by_cases hempty : scope.sectionPath.isEmpty = true
    · rw [List.isEmpty_iff.mp hempty, List.nil_append, hroot]
      rfl
    · dsimp only
      rw [if_neg hempty, Option.none_or]

/-- A reference leads from the value at its path, in the root or else in the section, through its
    accessors. -/
theorem resolveReference_accessors (scope : Scope) {base : List Char} (hbase : '[' ∉ base)
    {accessors : List Accessor} (hne : accessors ≠ []) (h : ∀ a ∈ accessors, a.IsTellable) :
    (scope.resolveReference (base ++ accessors.flatMap Accessor.text)).mapError Fault.code
      = match (scope.tree.lookup (KeyPath.ofText base)).or
          (scope.tree.lookup (scope.sectionPath ++ KeyPath.ofText base)) with
        | some v => Accessor.walk accessors v
        | none => .error 501 := by
  have hbalanced : ∀ accessor ∈ accessors.map Accessor.content, Balanced accessor :=
    List.forall_mem_map.mpr fun a ha => Accessor.balanced_content (h a ha)
  rw [Accessor.flatMap_text, scope.resolveReference_of_interleaved
    (interleaved_append hbase hbalanced) (by simpa using hne), lookupPath, find?_eq]
  cases (scope.tree.lookup (KeyPath.ofText base)).or
      (scope.tree.lookup (scope.sectionPath ++ KeyPath.ofText base)) with
  | none => rfl
  | some v => exact Accessor.foldlM_access h v _

/-- A key of digits, a key with brackets and an empty one; a place beyond 64 bits; a place of an
    object. -/
theorem resolveReference_accessors_rows :
    let scope : Scope := {
      tree := ⟨[("data", .object [("rows", .object [("7", .object [("a[0]", .array [.int 1,
        .object [("", .bool true)]])])])])]⟩
      sectionPath := ["data"] }
    (scope.resolveReference "rows[\"7\"][\"a[0]\"][1][\"\"]".toList).mapError Fault.code
        = .ok (.bool true)
      ∧ (scope.resolveReference "rows[\"7\"][\"a[0]\"][18446744073709551616]".toList).mapError
          Fault.code = .error 502
      ∧ (scope.resolveReference "rows[7]".toList).mapError Fault.code = .error 503 := by
  have hbase : '[' ∉ "rows".toList := by decide
  have hseven : (Accessor.key "7").IsTellable :=
    ⟨.of_not_mem (by decide) (by decide), by simp [Text.isQuote], by simp [Text.isQuote]⟩
  have hnested : (Accessor.key "a[0]").IsTellable := by
    have hletter : Balanced ['a'] := .of_not_mem (by decide) (by decide)
    have hzero : Balanced ['0'] := .of_not_mem (by decide) (by decide)
    exact ⟨hletter.append hzero.bracketed, by simp [Text.isQuote], by simp [Text.isQuote]⟩
  have hempty : (Accessor.key "").IsTellable :=
    ⟨.of_not_mem (by decide) (by decide), by simp, by simp⟩
  have hindex : ∀ n, (Accessor.index n).IsTellable := fun _ => trivial
  have hmember : ∀ a ∈ [Accessor.key "7", .key "a[0]", .index 1, .key ""], a.IsTellable := by
    simpa only [List.forall_mem_cons] using
      ⟨hseven, hnested, hindex 1, hempty, List.forall_mem_nil _⟩
  have hbeyond : ∀ a ∈ [Accessor.key "7", .key "a[0]", .index (2 ^ 64)], a.IsTellable := by
    simpa only [List.forall_mem_cons] using ⟨hseven, hnested, hindex _, List.forall_mem_nil _⟩
  have hseventh : ∀ a ∈ [Accessor.index 7], a.IsTellable :=
    List.forall_mem_singleton.mpr (hindex 7)
  refine ⟨?_, ?_, ?_⟩
  · exact (resolveReference_accessors _ hbase (by simp) hmember).trans rfl
  · exact (resolveReference_accessors _ hbase (by simp) hbeyond).trans rfl
  · exact (resolveReference_accessors _ hbase (by simp) hseventh).trans rfl

end Scope

end ConfigLang
