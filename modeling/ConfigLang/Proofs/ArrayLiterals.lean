import ConfigLang.Proofs.ArrayLayout

set_option autoImplicit false

/-! # Literals of nested arrays

The literal of an array has a comma and a blank between the literals of its items, and strings in
quotes. The items are told apart again whatever the strings hold, since no scanner looks between
quotes; only a backslash at the end of a string would hide the quote behind it. Main statement: the
literal of a value resolves to the value in every document (`Scope.resolve_literal`). -/

namespace ConfigLang

open Text

/-! ## Items with commas and blanks between them -/

/-- A text that may be an item among others. -/
structure IsItem (text : List Char) : Prop where
  solid : IsSolid text
  closed : Scan.Closed text
  on_line : '\n' ∉ text

/-- Items with a comma and a blank between them. -/
def spaced (texts : List (List Char)) : List Char :=
  [',', ' '].intercalate texts

theorem spaced_cons_cons (text next : List Char) (rest : List (List Char)) :
    spaced (text :: next :: rest) = text ++ ',' :: ([' '] ++ spaced (next :: rest)) := by
  rw [spaced, List.intercalate_cons_cons, List.append_assoc]
  rfl

theorem spaced_singleton (text : List Char) : spaced [text] = text :=
  List.intercalate_singleton

theorem isBlank_of_mem_space : ∀ c ∈ [' '], isBlank c = true :=
  List.forall_mem_singleton.mpr rfl

section

variable {texts : List (List Char)}

theorem isSolid_spaced (hne : texts ≠ []) (h : ∀ text ∈ texts, IsItem text) :
    IsSolid (spaced texts) := by
  induction texts with
  | nil => exact absurd rfl hne
  | cons text rest ih =>
    rw [List.forall_mem_cons] at h
    cases rest with
    | nil =>
      rw [spaced_singleton]
      exact h.1.solid
    | cons next others =>
      rw [spaced_cons_cons]
      exact h.1.solid.append (ih (by simp) h.2) [',', ' ']

theorem closedInside_spaced (h : ∀ text ∈ texts, IsItem text) :
    Scan.ClosedInside (spaced texts) := by
  induction texts with
  | nil => exact Scan.closed_nil.inside
  | cons text rest ih =>
    rw [List.forall_mem_cons] at h
    cases rest with
    | nil =>
      rw [spaced_singleton]
      exact h.1.closed.inside
    | cons next others =>
      have hgap : Scan.Closed [' '] := closed_of_blank isBlank_of_mem_space
      rw [spaced_cons_cons]
      exact h.1.closed.inside.comma (hgap.inside.append (ih h.2))

theorem newline_not_mem_spaced (h : ∀ text ∈ texts, IsItem text) : '\n' ∉ spaced texts := by
  induction texts with
  | nil => exact List.not_mem_nil
  | cons text rest ih =>
    rw [List.forall_mem_cons] at h
    cases rest with
    | nil =>
      rw [spaced_singleton]
      exact h.1.on_line
    | cons next others =>
      rw [spaced_cons_cons]
      simpa using ⟨h.1.on_line, ih h.2⟩

/-- The pieces between the commas, trimmed, are the items. -/
theorem trim_splitTopLevel_spaced (hne : texts ≠ []) (h : ∀ text ∈ texts, IsItem text)
    {gap : List Char} (hgap : ∀ c ∈ gap, isBlank c = true) :
    (Scan.splitTopLevel ',' (gap ++ spaced texts)).map trim = texts := by
  induction texts generalizing gap with
  | nil => exact absurd rfl hne
  | cons text rest ih =>
    rw [List.forall_mem_cons] at h
    have htrim : trim (gap ++ text) = text := by rw [trim_append_left hgap, h.1.solid.trim_eq]
    have hclosed := (closed_of_blank hgap).append h.1.closed
    cases rest with
    | nil => rw [spaced_singleton, Scan.splitTopLevel_of_closed hclosed, List.map_singleton, htrim]
    | cons next others =>
      rw [spaced_cons_cons, ← List.append_assoc, Scan.splitTopLevel_append_comma hclosed,
        List.map_cons, htrim, ih (by simp) h.2 isBlank_of_mem_space]

/-- Items in brackets are found again. -/
theorem itemTexts_spaced (h : ∀ text ∈ texts, IsItem text) :
    itemTexts ('[' :: (spaced texts ++ [']'])) = texts := by
  rw [Scope.itemTexts_bracketed, joinLines_of_not_mem (newline_not_mem_spaced h)]
  cases htexts : texts with
  | nil =>
    have hpieces : Scan.splitTopLevel ',' [] = [[]] := Scan.splitTopLevel_of_closed Scan.closed_nil
    show ((Scan.splitTopLevel ',' []).map trim).filter (!·.isEmpty) = []
    rw [hpieces]
    rfl
  | cons text rest =>
    rw [← htexts]
    have hne : texts ≠ [] := by simp [htexts]
    have hgap : ∀ c ∈ ([] : List Char), isBlank c = true := List.forall_mem_nil _
    have hsplit := trim_splitTopLevel_spaced hne h hgap
    rw [List.nil_append] at hsplit
    rw [(isSolid_spaced hne h).trim_eq, hsplit, List.filter_eq_self]
    intro item hitem
    simp [(h item hitem).solid.ne_nil]

theorem isItem_bracketed (h : ∀ text ∈ texts, IsItem text) :
    IsItem ('[' :: (spaced texts ++ [']'])) where
  solid := isSolid_bracketed _
  closed := (closedInside_spaced h).bracketed
  on_line := by simpa using newline_not_mem_spaced h

end

/-! ## Literals -/

namespace Value

mutual

/-- The text that a document holds for a value. -/
def literal : Value → List Char
  | .string s => quote s.toList
  | .array items => '[' :: (spaced (literals items) ++ [']'])
  | v => v.text

def literals : List Value → List (List Char)
  | [] => []
  | item :: rest => item.literal :: literals rest

end

theorem literals_eq_map (items : List Value) : literals items = items.map literal := by
  induction items with
  | nil => rfl
  | cons item rest ih => rw [literals, ih, List.map_cons]

/-- A value that is spelled by its literal: floats and objects aside, and without strings that end
    in a backslash. -/
inductive IsSpelled : Value → Prop where
  | null : IsSpelled .null
  | bool (b : Bool) : IsSpelled (.bool b)
  | int (n : Int64) : IsSpelled (.int n)
  | string {s : String} (h : s.toList.getLast? ≠ some '\\') : IsSpelled (.string s)
  | array {items : List Value} (h : ∀ item ∈ items, IsSpelled item) : IsSpelled (.array items)

variable {v : Value}

theorem IsSpelled.isItem (h : v.IsSpelled) : IsItem v.literal := by
  induction h with
  | null =>
    exact ⟨Scalar.isSolid_literal .null, @closed_word .null rfl,
      Scalar.newline_not_mem_literal .null⟩
  | bool b =>
    exact ⟨Scalar.isSolid_literal (.bool b), @closed_word (.bool b) rfl,
      Scalar.newline_not_mem_literal (.bool b)⟩
  | int n =>
    exact ⟨Scalar.isSolid_literal (.int n), closed_integerText _,
      Scalar.newline_not_mem_literal (.int n)⟩
  | @string s hlast =>
    exact ⟨Scalar.isSolid_literal (.string s), Scan.closed_quote hlast, newline_not_mem_quote _⟩
  | @array items _ ih =>
    rw [literal, literals_eq_map]
    exact isItem_bracketed (List.forall_mem_map.mpr ih)

end Value

/-! ## Reading literals -/

namespace Scope

/-- The literal of a value resolves to the value, whatever its strings hold and whatever stands in
    the document and the environment. -/
theorem resolve_literal (scope : Scope) {v : Value} (h : v.IsSpelled) :
    scope.resolve v.literal = .ok v := by
  induction h with
  | null => exact Scalar.resolveBy_literal _ scope .null
  | bool b => exact Scalar.resolveBy_literal _ scope (.bool b)
  | int n => exact Scalar.resolveBy_literal _ scope (.int n)
  | @string s _ => exact Scalar.resolveBy_literal _ scope (.string s)
  | @array items hitems ih =>
    have hitem : ∀ text ∈ items.map Value.literal, IsItem text :=
      List.forall_mem_map.mpr fun item hmem => (hitems item hmem).isItem
    rw [Value.literal, Value.literals_eq_map, resolve,
      resolveBy_bracketed (isItem_bracketed hitem).solid.trim_eq, itemTexts_spaced hitem]
    have hvalues : List.Forall₂ (fun text v => scope.resolve text = .ok v)
        (items.map Value.literal) items :=
      List.forall₂_map_left_iff.mpr (List.forall₂_same.mpr ih)
    exact congrArg (Except.map Value.array) (mapM_eq_ok_iff.mpr hvalues)

/-- Commas, brackets, quotes and operators inside strings do not count. -/
theorem resolve_literal_marks :
    (Value.array [.string "a, [b] + \"c\"", .array [.null, .int (-1)], .bool true]).IsSpelled
      ∧ resolve {} "[\"a, [b] + \\\"c\\\"\", [null, -1], true]".toList
        = .ok (.array [.string "a, [b] + \"c\"", .array [.null, .int (-1)], .bool true]) := by
  have hstring : (Value.string "a, [b] + \"c\"").IsSpelled := .string (by decide)
  have hitems : (Value.array [.null, .int (-1)]).IsSpelled :=
    .array (by simpa using ⟨.null, .int (-1)⟩)
  have harray : (Value.array
      [.string "a, [b] + \"c\"", .array [.null, .int (-1)], .bool true]).IsSpelled :=
    .array (by simpa using ⟨hstring, hitems, .bool true⟩)
  exact ⟨harray, resolve_literal {} harray⟩

end Scope

end ConfigLang
