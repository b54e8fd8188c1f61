import ConfigLang.Proofs.IndexedReferences
import ConfigLang.Proofs.NumberTexts

set_option autoImplicit false

/-! # Which texts with accessors are references

A text that is no identifier is looked up only if a point stands in it. A path with accessors is no
identifier, and it has a point only between its keys. Main statement: two keys or more with accessors
are what they refer to, and one key with accessors is the string of its own characters
(`Scope.resolve_indexed`). -/

namespace ConfigLang

open Text

/-! ## Accessors without marks -/

/-- Whether a character decides between the rules of resolving wherever it stands outside quotes. -/
def isMark (c : Char) : Bool :=
  c == '.' || isOperator c

namespace Accessor

/-- An accessor that holds neither a point nor an operator. -/
def IsPlain : Accessor → Prop
  | .index _ => True
  | .key name => ∀ c ∈ name.toList, isMark c = false

theorem isMark_of_mem {a : Accessor} (h : a.IsPlain) {c : Char} (hc : c ∈ a.text) :
    isMark c = false := by
  rw [text, inBrackets, List.mem_cons, List.mem_append, List.mem_singleton] at hc
  rcases hc with rfl | hcontent | rfl
  · rfl
  · cases a with
    | index n =>
      have hdigit := Number.isDigit_of_mem_digitsOf hcontent
      have hbreak : Expr.Token.isBreak c = false :=
        Expr.Token.isBreak_of_class (p := Char.isDigit) (by decide) hdigit
      have hpoint : c ≠ '.' := ne_of_class hdigit rfl
      rw [Expr.Token.isBreak, Bool.or_eq_false_iff] at hbreak
      simp [isMark, hpoint, hbreak.2]
    | key name =>
      rw [content, List.mem_cons, List.mem_append, List.mem_singleton] at hcontent
      rcases hcontent with rfl | hname | rfl
      · rfl
      · exact h c hname
      · rfl
  · rfl

theorem isMark_of_mem_flatMap {accessors : List Accessor} (h : ∀ a ∈ accessors, a.IsPlain)
    {c : Char} (hc : c ∈ accessors.flatMap text) : isMark c = false := by
  obtain ⟨a, ha, hmem⟩ := List.mem_flatMap.mp hc
  exact isMark_of_mem (h a ha) hmem

/-- Accessors end in a closing bracket. -/
theorem exists_flatMap_text_eq {accessors : List Accessor} (hne : accessors ≠ []) :
    ∃ front, accessors.flatMap text = front ++ [']'] := by
  obtain ⟨front, last, rfl⟩ := (List.eq_nil_or_concat accessors).resolve_left hne
  exact ⟨front.flatMap text ++ '[' :: last.content, by simp [text, inBrackets]⟩

end Accessor

/-! ## Texts from a name to a closing bracket -/

/-- A text that begins like a name and ends in a closing bracket. -/
structure IsSubscripted (text : List Char) : Prop where
  shape : ∃ c inner, text = c :: (inner ++ [']']) ∧ (c.isAlpha || c == '_') = true

namespace IsSubscripted

variable {text : List Char}

theorem bracket_mem (h : IsSubscripted text) : ']' ∈ text := by
  obtain ⟨c, inner, rfl, -⟩ := h.shape
  simp

theorem ne_nil (h : IsSubscripted text) : text ≠ [] :=
  List.ne_nil_of_mem h.bracket_mem

theorem startsName (h : IsSubscripted text) : StartsName text := by
  obtain ⟨c, inner, rfl, hc⟩ := h.shape
  intro d hd
  rwa [← Option.some.inj hd]

theorem trim_eq (h : IsSubscripted text) : trim text = text := by
  obtain ⟨c, inner, rfl, hc⟩ := h.shape
  have hblank : isBlank c = false := by
    rw [Bool.or_eq_true, beq_iff_eq] at hc
    rcases hc with halpha | rfl
    · exact isBlank_of_isAlphanum (by simp [Char.isAlphanum, halpha])
    · rfl
  exact trim_enclosed hblank rfl inner

theorem isBare (h : IsSubscripted text) : IsBare text where
  trim_eq := h.trim_eq
  unquoted?_eq := h.startsName.unquoted?_eq
  isBracketed_eq := h.startsName.isBracketed_eq
  isBraced_eq := h.startsName.isBraced_eq
  wordValue?_eq := wordValue?_of_mem (by decide) h.bracket_mem

theorem readFloat?_eq (h : IsSubscripted text) : Number.readFloat? text = none :=
  Number.readFloat?_of_mem (by decide) h.bracket_mem (by decide) (by decide) (by decide)
    h.bracket_mem

theorem isSimpleLiteral_eq (h : IsSubscripted text) : isSimpleLiteral text = false :=
  h.isBare.isSimpleLiteral_of_readFloat? h.readFloat?_eq

theorem ofText_eq (h : IsSubscripted text) :
    Literal.ofText text = .ok (.value (.string (String.ofList text))) :=
  h.isBare.ofText_of_readFloat? h.readFloat?_eq

/-- The bracket is no part of a name, so only a point makes such a text a reference. -/
theorem isReference_iff (h : IsSubscripted text) : isReference text = true ↔ '.' ∈ text := by
  have hidentifier : isIdentifier text = false := by
    rw [← Bool.not_eq_true]
    exact fun hid => absurd (isNameChar_of_isIdentifier hid h.bracket_mem) (by decide)
  simp [isReference, h.isSimpleLiteral_eq, hidentifier]

theorem conversion?_eq (h : IsSubscripted text) : Scope.conversion? text = none := by
  obtain ⟨c, inner, rfl, -⟩ := h.shape
  rw [← List.cons_append]
  exact Scope.conversion?_concat (by decide) _

/-- Without operators it is a reference if it has a point, and else a string. -/
theorem resolve_eq (h : IsSubscripted text) (hoperator : hasOperator text = false)
    (scope : Scope) :
    scope.resolve text
      = if '.' ∈ text then scope.resolveReference text else .ok (.string (String.ofList text)) := by
  rw [scope.resolve_of_no_rule h.trim_eq h.ne_nil (h.startsName.expand?_eq scope.env)
    h.isSimpleLiteral_eq h.conversion?_eq hoperator, h.ofText_eq]
  simp only [h.isReference_iff]
  rfl

end IsSubscripted

/-! ## Paths with accessors -/

namespace KeyPath.IsNamed

variable {path : List String} {accessors : List Accessor}

theorem isSubscripted (h : IsNamed path) (hne : accessors ≠ []) :
    IsSubscripted ((KeyPath.text path).toList ++ accessors.flatMap Accessor.text) := by
  obtain ⟨c, rest, htext, hc⟩ := h.isDotted.first
  obtain ⟨front, hfront⟩ := Accessor.exists_flatMap_text_eq hne
  exact ⟨c, rest ++ front, by rw [htext, hfront]; simp, hc⟩

/-- Only a path of one key is without a point. -/
theorem point_mem_iff (h : IsNamed path) : '.' ∈ (KeyPath.text path).toList ↔ 1 < path.length := by
  rw [KeyPath.toList_text]
  cases path with
  | nil => exact absurd rfl h.nonempty
  | cons key rest =>
    cases rest with
    | nil => simpa using h.point_not_mem List.mem_cons_self
    | cons next others => simp [List.intercalate_cons_cons]

end KeyPath.IsNamed

namespace Scope

/-- With accessors that hold neither a point nor an operator, a path of two identifiers or more is
    what it refers to, and one identifier is no reference but a string. -/
theorem resolve_indexed (scope : Scope) {path : List String} (hpath : KeyPath.IsNamed path)
    {accessors : List Accessor} (hne : accessors ≠ []) (hplain : ∀ a ∈ accessors, a.IsPlain) :
    let text := (KeyPath.text path).toList ++ accessors.flatMap Accessor.text
    (1 < path.length → scope.resolve text = scope.resolveReference text)
      ∧ (path.length = 1 → scope.resolve text = .ok (.string (String.ofList text))) := by
  intro text
  have hmark : ∀ c ∈ accessors.flatMap Accessor.text, c ≠ '.' ∧ isOperator c = false := by
    intro c hc
    simpa [isMark] using Accessor.isMark_of_mem_flatMap hplain hc
  have hoperator : hasOperator text = false := by
    refine hasOperator_of_forall fun c hc => ?_
    rcases List.mem_append.mp hc with hbase | haccessors
    · exact hpath.isDotted.isOperator_of_mem hbase
    · exact (hmark c haccessors).2
  have hpoint : '.' ∈ text ↔ 1 < path.length := by
    rw [List.mem_append, hpath.point_mem_iff]
    exact or_iff_left fun hmem => (hmark _ hmem).1 rfl
  have hresolve := (hpath.isSubscripted hne).resolve_eq hoperator scope
  refine ⟨fun hlength => ?_, fun hlength => ?_⟩
  · rw [hresolve, if_pos (hpoint.mpr hlength)]
  · rw [hresolve, if_neg (fun hmem => by have := hpoint.mp hmem; omega)]

/-- A member of an item under two keys; an item under one key, which is not read. -/
theorem resolve_indexed_users :
    let scope : Scope := { tree := ⟨[("data", .object [("users", .array [.object [("id",
      .int 5)]])]), ("items", .array [.int 5])]⟩ }
    scope.resolve "data.users[0][\"id\"]".toList = .ok (.int 5)
      ∧ scope.resolve "items[0]".toList = .ok (.string "items[0]") := by
  intro scope
  have husers : KeyPath.IsNamed ["data", "users"] := ⟨by decide, by decide⟩
  have hitems : KeyPath.IsNamed ["items"] := ⟨by decide, by decide⟩
  have hindex : ∀ n, (Accessor.index n).IsPlain := fun _ => trivial
  have hid : ∀ c ∈ ['i', 'd'], isMark c = false := by simp [isMark, isOperator]
  have hmember : ∀ a ∈ [Accessor.index 0, .key "id"], a.IsPlain := by
    simpa only [List.forall_mem_cons] using ⟨hindex 0, hid, List.forall_mem_nil _⟩
  have hitem : ∀ a ∈ [Accessor.index 0], a.IsPlain := List.forall_mem_singleton.mpr (hindex 0)
  obtain ⟨htwo, -⟩ := resolve_indexed scope husers (by simp) hmember
  obtain ⟨-, hone⟩ := resolve_indexed scope hitems (by simp) hitem
  exact ⟨(htwo (by decide)).trans (by cbv), (hone rfl).trans rfl⟩

/-- The item is there, and still the text stands for itself. -/
theorem resolve_indexed_items :
    let scope : Scope := { tree := ⟨[("items", .array [.int 5])]⟩ }
    "items[0]".toList = (KeyPath.text ["items"]).toList ++ [Accessor.index 0].flatMap Accessor.text
      ∧ scope.resolve "items[0]".toList = .ok (.string "items[0]")
      ∧ scope.resolveReference "items[0]".toList = .ok (.int 5) := by
  intro scope
  have hsubscripted : IsSubscripted "items[0]".toList := ⟨'i', "tems[0".toList, rfl, rfl⟩
  refine ⟨rfl, ?_, by cbv⟩
  rw [hsubscripted.resolve_eq (by decide), if_neg (by decide), String.ofList_toList]

end Scope

end ConfigLang
