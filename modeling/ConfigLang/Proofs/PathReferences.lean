import ConfigLang.Proofs.PlainDocument
import ConfigLang.Proofs.TreeWriting
import ConfigLang.Proofs.WrittenValue

set_option autoImplicit false

/-! # Paths as references

No mark tells that a text is a reference: it is one because no other rule of resolving fits. A path
of identifiers is one unless it ends in the name of a conversion or is itself a word for a value.
Main statement: such a path resolves to what stands there from the root, or else from the section,
and a key that was written reads back through both (`Scope.resolve_path`). -/

namespace ConfigLang

open Text
open Document (isNameChar)

/-! ## Texts of paths -/

theorem isDigit_of_isAlpha {c : Char} (h : c.isAlpha = true) : c.isDigit = false := by
  simp only [Char.isAlpha, Char.isUpper, Char.isLower, Char.isDigit, ge_iff_le, Bool.or_eq_true,
    Bool.and_eq_true, Bool.and_eq_false_iff, decide_eq_true_eq, decide_eq_false_iff_not,
    UInt32.le_iff_toNat_le] at h ⊢
  have hnine : '9'.val.toNat = 57 := rfl
  have hupper : 'A'.val.toNat = 65 := rfl
  have hlower : 'a'.val.toNat = 97 := rfl
  omega

theorem isNameChar_of_isIdentifier {text : List Char} (h : isIdentifier text = true) {c : Char}
    (hc : c ∈ text) : isNameChar c = true :=
  @Document.Name.isNameChar_of_mem ⟨text, h⟩ c hc

/-- A text that begins like a name. -/
def StartsName (text : List Char) : Prop :=
  ∀ c ∈ text.head?, (c.isAlpha || c == '_') = true

namespace StartsName

variable {text : List Char}

theorem head_ne (h : StartsName text) {d : Char} (hd : (d.isAlpha || d == '_') = false) :
    ∀ c ∈ text.head?, c ≠ d :=
  fun c hc => ne_of_class (p := fun c => c.isAlpha || c == '_') (h c hc) hd

theorem unquoted?_eq (h : StartsName text) : unquoted? text = none := by
  rw [unquoted?, between?_of_head_ne (h.head_ne rfl), between?_of_head_ne (h.head_ne rfl)]

theorem isBracketed_eq (h : StartsName text) : isBracketed text = false := by
  rw [isBracketed, between?_of_head_ne (h.head_ne rfl)]
  rfl

theorem isBraced_eq (h : StartsName text) : isBraced text = false := by
  rw [isBraced, between?_of_head_ne (h.head_ne rfl)]
  rfl

theorem expand?_eq (h : StartsName text) (env : Environment) : env.expand? text = none :=
  env.expand?_of_head_ne (h.head_ne rfl)

end StartsName

/-- A text of identifiers and points that begins with an identifier. -/
structure IsDotted (text : List Char) : Prop where
  first : ∃ c rest, text = c :: rest ∧ (c.isAlpha || c == '_') = true
  chars : ∀ c ∈ text, (isNameChar c || c == '.') = true

namespace IsDotted

variable {text : List Char}

theorem ne_of_mem (h : IsDotted text) {c d : Char} (hc : c ∈ text)
    (hd : (isNameChar d || d == '.') = false) : c ≠ d :=
  ne_of_class (p := fun c => isNameChar c || c == '.') (h.chars c hc) hd

theorem not_mem (h : IsDotted text) {d : Char} (hd : (isNameChar d || d == '.') = false) :
    d ∉ text :=
  fun hmem => h.ne_of_mem hmem hd rfl

theorem isBlank_of_mem (h : IsDotted text) {c : Char} (hc : c ∈ text) : isBlank c = false := by
  have hchar := h.chars c hc
  rw [Bool.or_eq_true, beq_iff_eq] at hchar
  rcases hchar with hname | rfl
  · exact Document.isBlank_of_isNameChar hname
  · rfl

theorem trim_eq (h : IsDotted text) : trim text = text :=
  trim_of_no_blank fun _ hc => h.isBlank_of_mem hc

theorem startsName (h : IsDotted text) : StartsName text := by
  obtain ⟨c, rest, rfl, hc⟩ := h.first
  intro d hd
  rwa [← Option.some.inj hd]

theorem isOperator_of_mem (h : IsDotted text) {c : Char} (hc : c ∈ text) : isOperator c = false := by
  simp [isOperator, h.ne_of_mem (d := '+') hc rfl, h.ne_of_mem (d := '-') hc rfl,
    h.ne_of_mem (d := '*') hc rfl, h.ne_of_mem (d := '/') hc rfl, h.ne_of_mem (d := '%') hc rfl]

theorem hasOperator_eq (h : IsDotted text) : hasOperator text = false :=
  hasOperator_of_forall fun _ hc => h.isOperator_of_mem hc

/-- Neither a digit, a sign nor a point stands at the beginning, so only the words are numbers. -/
theorem readFloat?_eq (h : IsDotted text) (hword : String.ofList (text.map Char.toLower) ∉
    ["inf", "infinity", "nan"]) : Number.readFloat? text = none := by
  obtain ⟨c, rest, rfl, hc⟩ := h.first
  have hdigit : c.isDigit = false := by
    rw [Bool.or_eq_true, beq_iff_eq] at hc
    rcases hc with halpha | rfl
    · exact isDigit_of_isAlpha halpha
    · rfl
  have hne : ∀ {d : Char}, (d.isAlpha || d == '_') = false → c ≠ d :=
    fun hd => ne_of_class (p := fun c => c.isAlpha || c == '_') hc hd
  have hsign : Number.splitSign (c :: rest) = (false, c :: rest) :=
    Number.splitSign_of_head_ne fun d hd => Option.some.inj hd ▸ ⟨hne rfl, hne rfl⟩
  have hfraction : Number.splitFraction (c :: rest) = ([], c :: rest) := by
    unfold Number.splitFraction
    split
    next heq => exact absurd (List.cons.inj heq).1 (hne rfl)
    next => rfl
  have hdecimal : Number.readDecimal? (c :: rest) = none := by
    rw [Number.readDecimal?, List.takeWhile_cons_of_neg (by simp [hdigit]),
      List.dropWhile_cons_of_neg (by simp [hdigit]), hfraction]
    rfl
  simp only [List.mem_cons, List.not_mem_nil, or_false, not_or] at hword
  rw [Number.readFloat?, hsign]
  dsimp only
  rw [hdecimal, Number.readWord?]
  dsimp only
  rw [if_neg (not_or.mpr ⟨hword.1, hword.2.1⟩), if_neg hword.2.2]

/-- A dotted text that is no word describes no value by itself. -/
theorem isSimpleLiteral_eq (h : IsDotted text) (hword : String.ofList (text.map Char.toLower) ∉
    ["true", "false", "null", "inf", "infinity", "nan"]) : isSimpleLiteral text = false := by
  have hfloat := h.readFloat?_eq fun hmem => hword (by simp at hmem ⊢; tauto)
  have hvalue : wordValue? text = none := by
    simp only [List.mem_cons, List.not_mem_nil, or_false, not_or] at hword
    simp [wordValue?, hword]
  simp [isSimpleLiteral, h.trim_eq, h.startsName.unquoted?_eq, h.startsName.isBracketed_eq,
    h.startsName.isBraced_eq, hvalue, hfloat]

end IsDotted

/-! ## Paths that are references -/

namespace KeyPath

/-- The names of the conversions. -/
def targetNames : List String := ["int", "float", "string", "bool"]

/-- The words for values. -/
def valueWords : List String := ["true", "false", "null", "inf", "infinity", "nan"]

/-- A path of identifiers. -/
structure IsNamed (path : List String) : Prop where
  nonempty : path ≠ []
  identifiers : ∀ key ∈ path, isIdentifier key.toList = true

namespace IsNamed

variable {path : List String}

theorem isNameChar_of_mem (h : IsNamed path) {key : String} (hkey : key ∈ path) {c : Char}
    (hc : c ∈ key.toList) : isNameChar c = true :=
  isNameChar_of_isIdentifier (h.identifiers key hkey) hc

theorem point_not_mem (h : IsNamed path) {key : String} (hkey : key ∈ path) : '.' ∉ key.toList :=
  fun hmem => absurd (h.isNameChar_of_mem hkey hmem) (by decide)

theorem ofText_text (h : IsNamed path) : ofText (KeyPath.text path).toList = path :=
  KeyPath.ofText_text h.nonempty fun _ hkey => h.point_not_mem hkey

theorem isDotted (h : IsNamed path) : IsDotted (KeyPath.text path).toList := by
  rw [toList_text]
  refine ⟨?_, fun c hc => ?_⟩
  · cases path with
    | nil => exact absurd rfl h.nonempty
    | cons key rest =>
      have hkey := h.identifiers key List.mem_cons_self
      cases hchars : key.toList with
      | nil => exact absurd hkey (by rw [hchars]; decide)
      | cons c more =>
        rw [hchars, isIdentifier, Bool.and_eq_true] at hkey
        rw [List.map_cons, hchars]
        cases rest with
        | nil => exact ⟨c, more, by simp, hkey.1⟩
        | cons next others => exact ⟨c, _, by simp [List.intercalate_cons_cons]; rfl, hkey.1⟩
  · rcases mem_intercalate hc with rfl | ⟨key, hkey, hmem⟩
    · rfl
    · obtain ⟨key, hin, rfl⟩ := List.mem_map.mp hkey
      rw [h.isNameChar_of_mem hin hmem]
      rfl

end IsNamed

/-- A path of identifiers that neither ends in the name of a conversion nor is a word for a value in
    any case. -/
structure IsReference (path : List String) : Prop where
  nonempty : path ≠ []
  identifiers : ∀ key ∈ path, isIdentifier key.toList = true
  no_conversion : 1 < path.length → ∀ last ∈ path.getLast?, last ∉ targetNames
  no_word : path.length = 1 → ∀ key ∈ path.head?,
    String.ofList (key.toList.map Char.toLower) ∉ valueWords

namespace IsReference

variable {path : List String}

instance : Decidable (IsReference path) :=
  decidable_of_iff (path ≠ [] ∧ (∀ key ∈ path, isIdentifier key.toList = true)
    ∧ (1 < path.length → ∀ last ∈ path.getLast?, last ∉ targetNames)
    ∧ (path.length = 1 → ∀ key ∈ path.head?,
      String.ofList (key.toList.map Char.toLower) ∉ valueWords))
    ⟨fun ⟨hne, hid, hconv, hword⟩ => ⟨hne, hid, hconv, hword⟩,
      fun ⟨hne, hid, hconv, hword⟩ => ⟨hne, hid, hconv, hword⟩⟩

theorem isNamed (h : IsReference path) : IsNamed path :=
  ⟨h.nonempty, h.identifiers⟩

/-- One key alone that is no word, or keys with a point before the last one. -/
theorem single_or_pointed (h : IsReference path) :
    (∃ key : String, (KeyPath.text path).toList = key.toList ∧ isIdentifier key.toList = true
        ∧ String.ofList (key.toList.map Char.toLower) ∉ valueWords)
      ∨ ∃ (front : List Char) (last : String),
        (KeyPath.text path).toList = front ++ '.' :: last.toList ∧ last ∈ path
          ∧ last ∉ targetNames := by
  cases path with
  | nil => exact absurd rfl h.nonempty
  | cons key rest =>
    cases rest with
    | nil =>
      exact Or.inl ⟨key, by rw [KeyPath.text, String.intercalate_singleton],
        h.identifiers key List.mem_cons_self, h.no_word rfl key rfl⟩
    | cons next others =>
      have hne : key :: next :: others ≠ [] := List.cons_ne_nil _ _
      have hsplit := List.dropLast_concat_getLast hne
      refine Or.inr ⟨(KeyPath.text (key :: next :: others).dropLast).toList,
        (key :: next :: others).getLast hne, ?_, List.getLast_mem hne,
        h.no_conversion (by simp) _ (List.getLast?_eq_getLast_of_ne_nil hne)⟩
      have htext := String.intercalate_append_of_ne_nil (s := ".")
        (l := (key :: next :: others).dropLast) (m := [(key :: next :: others).getLast hne])
        (by simp) (by simp)
      rw [hsplit, String.intercalate_singleton] at htext
      rw [KeyPath.text, htext, String.toList_append, String.toList_append, List.append_assoc]
      rfl

/-- Neither the case of a word nor a point makes such a path a word for a value. -/
theorem isSimpleLiteral_text (h : IsReference path) :
    isSimpleLiteral (KeyPath.text path).toList = false := by
  refine h.isNamed.isDotted.isSimpleLiteral_eq ?_
  rcases h.single_or_pointed with ⟨key, htext, -, hword⟩ | ⟨front, last, htext, -, -⟩
  · rw [htext]
    exact hword
  · have hpoint : '.' ∈ (String.ofList ((KeyPath.text path).toList.map Char.toLower)).toList := by
      rw [String.toList_ofList, htext]
      exact List.mem_map.mpr ⟨'.', by simp, rfl⟩
    intro hmem
    have hnone : ∀ word ∈ valueWords, '.' ∉ word.toList := by decide
    exact hnone _ hmem hpoint

theorem isReference_text (h : IsReference path) :
    isReference (KeyPath.text path).toList = true := by
  rw [isReference, h.isSimpleLiteral_text]
  rcases h.single_or_pointed with ⟨key, htext, hid, -⟩ | ⟨front, last, htext, -, -⟩
  · rw [htext, hid]
    simp
  · rw [htext]
    simp

theorem conversion?_text (h : IsReference path) :
    Scope.conversion? (KeyPath.text path).toList = none := by
  rw [Scope.conversion?]
  rcases h.single_or_pointed with ⟨key, htext, hid, -⟩ | ⟨front, last, htext, hmem, hlast⟩
  · have hpoint : '.' ∉ key.toList := fun hc =>
      absurd (isNameChar_of_isIdentifier hid hc) (by decide)
    rw [htext, cutLast?_of_not_mem hpoint, Option.bind_none]
  · have htarget : Target.ofName? last.toList = none := by
      simp only [targetNames, List.mem_cons, List.not_mem_nil, or_false, not_or] at hlast
      simp [Target.ofName?, hlast]
    rw [htext, cutLast?_append_cons (h.isNamed.point_not_mem hmem), Option.bind_some]
    dsimp only
    rw [htarget, Option.map_none]

end IsReference

end KeyPath

/-! ## What a path refers to -/

namespace Scope

variable {path : List String}

/-- Where no rule before that of references fits, a text is a reference or a literal. -/
theorem resolve_of_no_rule (scope : Scope) {text : List Char} (htrim : trim text = text)
    (hne : text ≠ []) (hexpand : scope.env.expand? text = none)
    (hsimple : isSimpleLiteral text = false) (hconversion : conversion? text = none)
    (hoperator : hasOperator text = false) :
    scope.resolve text
      = if isReference text then scope.resolveReference text
        else Literal.ofText text >>= (·.finish scope.resolve) := by
  rw [resolve, resolveBy_eq, htrim, hexpand, hsimple, hconversion, hoperator, if_neg (by simpa)]
  rfl

theorem resolve_text (scope : Scope) (h : KeyPath.IsReference path) :
    scope.resolve (KeyPath.text path).toList
      = scope.resolveReference (KeyPath.text path).toList := by
  have hdotted := h.isNamed.isDotted
  have hne : (KeyPath.text path).toList ≠ [] := by
    obtain ⟨c, rest, htext, -⟩ := hdotted.first
    simp [htext]
  rw [scope.resolve_of_no_rule hdotted.trim_eq hne (hdotted.startsName.expand?_eq scope.env)
    h.isSimpleLiteral_text h.conversion?_text hdotted.hasOperator_eq, if_pos h.isReference_text]

theorem resolveReference_text (scope : Scope) (h : KeyPath.IsReference path) :
    scope.resolveReference (KeyPath.text path).toList
      = match scope.tree.lookup path, scope.tree.lookup (scope.sectionPath ++ path) with
        | some v, _ => .ok v
        | none, some v => .ok v
        | none, none => .error (.unresolved (.unknownReference (KeyPath.text path))) := by
  have hbracket : (KeyPath.text path).toList.contains '[' = false := by
    rw [← Bool.not_eq_true, List.contains_iff_mem]
    exact h.isNamed.isDotted.not_mem rfl
  rw [resolveReference, hbracket, Bool.false_and, if_neg Bool.false_ne_true, lookupPath,
    h.isNamed.ofText_text, find?, String.ofList_toList]
  cases hroot : scope.tree.lookup path with
  | some v => rfl
  | none =>
    dsimp only
    by_cases hempty : scope.sectionPath.isEmpty = true
    · rw [List.isEmpty_iff.mp hempty, List.nil_append, hroot]
      rfl
    · rw [if_neg hempty]
      cases scope.tree.lookup (scope.sectionPath ++ path) <;> rfl

theorem lookup_of_write {tree tree' : Tree} {sectionPath : List String} {key : String} {v : Value}
    (h : tree.write sectionPath key v = .ok tree') :
    tree'.lookup (sectionPath ++ [key]) = some v := by
  rw [Tree.lookup_of_ne_nil tree' (by simp)]
  exact Tree.at?_of_setPath h

/-- A path resolves to what stands there from the root, or else from the section. A key that was
    written is read back by its whole path in every section, and by itself in its own section if the
    root has no such key. -/
theorem resolve_path (tree : Tree) (sectionPath : List String) (env : Environment) :
    (∀ path, KeyPath.IsReference path →
      resolve ⟨tree, sectionPath, env⟩ (KeyPath.text path).toList
        = match tree.lookup path, tree.lookup (sectionPath ++ path) with
          | some v, _ => .ok v
          | none, some v => .ok v
          | none, none => .error (.unresolved (.unknownReference (KeyPath.text path))))
      ∧ (∀ path, (Fault.unresolved (.unknownReference path)).code = 501)
      ∧ ∀ key v tree', tree.write sectionPath key v = .ok tree' →
          (KeyPath.IsReference (sectionPath ++ [key]) → ∀ elsewhere,
            resolve ⟨tree', elsewhere, env⟩ (KeyPath.text (sectionPath ++ [key])).toList = .ok v)
          ∧ (KeyPath.IsReference [key] → tree'.lookup [key] = none →
            resolve ⟨tree', sectionPath, env⟩ key.toList = .ok v) := by
  have hresolve : ∀ (scope : Scope) {path : List String}, KeyPath.IsReference path →
      scope.resolve (KeyPath.text path).toList
        = match scope.tree.lookup path, scope.tree.lookup (scope.sectionPath ++ path) with
          | some v, _ => .ok v
          | none, some v => .ok v
          | none, none => .error (.unresolved (.unknownReference (KeyPath.text path))) :=
    fun scope _ h => (scope.resolve_text h).trans (scope.resolveReference_text h)
  refine ⟨fun path h => hresolve _ h, fun path => rfl, fun key v tree' hwrite => ?_⟩
  have hlookup := lookup_of_write hwrite
  refine ⟨fun h elsewhere => ?_, fun h hroot => ?_⟩
  · rw [hresolve _ h, hlookup]
  · have hkey : KeyPath.text [key] = key := String.intercalate_singleton
    have hbare := hresolve ⟨tree', sectionPath, env⟩ h
    rw [hroot, hlookup, hkey] at hbare
    exact hbare

/-- A key that stands at the root and in a section, and one that is written to the section. -/
theorem resolve_path_ports :
    resolve ⟨⟨[("port", .int 1), ("server", .object [("port", .int 2)])]⟩, ["server"], {}⟩
        "port".toList = .ok (.int 1)
      ∧ ∃ tree', Tree.write ⟨[("port", .int 1)]⟩ ["server"] "host" (.string "a") = .ok tree'
        ∧ resolve ⟨tree', ["client"], {}⟩ "server.host".toList = .ok (.string "a")
        ∧ resolve ⟨tree', ["server"], {}⟩ "host".toList = .ok (.string "a") := by
  obtain ⟨hpath, -, -⟩ := resolve_path ⟨[("port", .int 1), ("server", .object [("port", .int 2)])]⟩
    ["server"] {}
  obtain ⟨-, -, hwritten⟩ := resolve_path ⟨[("port", .int 1)]⟩ ["server"] {}
  refine ⟨hpath ["port"] (by decide), _, rfl, ?_, ?_⟩
  · exact (hwritten "host" (.string "a") _ rfl).1 (by decide) ["client"]
  · exact (hwritten "host" (.string "a") _ rfl).2 (by decide) rfl

end Scope

end ConfigLang
