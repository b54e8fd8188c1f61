import ConfigLang.Fault.Basic
import ConfigLang.Files.Store
import ConfigLang.Scan.Comment
import ConfigLang.Text.Blank
import ConfigLang.Text.Quoted

set_option autoImplicit false

/-! # Included files

A line `include "path"` stands for the lines of a file, less their comments, and those may include
further files. Relative paths start from the directory of the file that names them. A file that is
still being expanded may not be included again; since every nested file is a new key of the store,
expanding always comes to an end. -/

namespace ConfigLang.Document

open Files

/-! ## Lines that include -/

/-- How a line that includes a file begins. -/
def includeWord : List Char := "include ".toList

/-- The path that a line includes: it stands between quotes of either kind behind blanks. -/
def includedPath? (line : List Char) : Option (List Char) :=
  match (Text.behind? "include".toList line).map Text.trimStart with
  | some (q :: rest) =>
    let path := rest.takeWhile (!Text.isQuote ·)
    if Text.isQuote q && !path.isEmpty && path.length < rest.length then some path else none
  | _ => none

/-- Where an included path leads: a tilde stands for the home directory, if that is known, and a
    relative path starts from the base directory. -/
def includeTarget (store : Store) (base path : List Char) : Except Fault (List Char) :=
  match Text.behind? ['~', '/'] path with
  | some rest =>
    match store.home with
    | some home => .ok (join base (join home rest))
    | none => .error (.file (String.ofList path) .unknownHome)
  | none => .ok (join base path)

/-- A path leads nowhere exactly if it starts from a home directory that is unknown. -/
theorem includeTarget_eq_error_iff {store : Store} {base path : List Char} {f : Fault} :
    includeTarget store base path = .error f
      ↔ store.home = none ∧ (∃ rest, Text.behind? ['~', '/'] path = some rest)
        ∧ f = .file (String.ofList path) .unknownHome := by
  unfold includeTarget
  cases Text.behind? ['~', '/'] path with
  | none => simp
  | some rest =>
    cases store.home with
    | none => simp [eq_comm]
    | some home => simp

/-! ## Expanding -/

/-- The files of a store that are not being expanded. -/
def unexpanded (store : Store) (stack : List (List String)) : Nat :=
  (store.nodes.map Prod.fst).countP (!stack.contains ·)

theorem countP_lt_countP {α : Type} {p q : α → Bool} {l : List α} {a : α}
    (himp : ∀ x, p x = true → q x = true) (ha : a ∈ l) (hp : p a = false) (hq : q a = true) :
    l.countP p < l.countP q := by
  obtain ⟨front, back, rfl⟩ := List.append_of_mem ha
  have hfront := List.countP_mono_left (l := front) fun x _ => himp x
  have hback := List.countP_mono_left (l := back) fun x _ => himp x
  simp only [List.countP_append, List.countP_cons, hp, hq]
  simp only [Bool.false_eq_true, if_false, if_true]
  omega

theorem unexpanded_cons_lt {store : Store} {stack : List (List String)} {key : List String}
    (hkey : key ∈ store.nodes.map Prod.fst) (hstack : key ∉ stack) :
    unexpanded store (key :: stack) < unexpanded store stack := by
  apply countP_lt_countP (a := key) _ hkey
  · simp
  · simpa using hstack
  · intro k hk
    simp only [List.contains_cons, Bool.not_or, Bool.and_eq_true] at hk
    exact hk.2

/-- Replace every line that includes a file by the lines of the file, where `stack` holds the files
    that are being expanded. -/
def expandIncludes (store : Store) (base : List Char) (stack : List (List String))
    (lines : List (List Char)) : Except Fault (List (List Char)) :=
  match lines with
  | [] => .ok []
  | raw :: rest =>
    let line := Text.trim raw
    if includeWord.isPrefixOf line then
      match includedPath? line with
      | none => .error (.malformed (.includeForm (String.ofList line)))
      | some path =>
        match includeTarget store base path with
        | .error f => .error f
        | .ok target =>
          let shownTarget := String.ofList target
          match _hfile : store.file? target with
          | none => .error (.file shownTarget (.missingInclude (String.ofList path)))
          | some (key, bytes) =>
            if _hkey : key ∈ stack then
              .error (.file shownTarget (.circularInclude (String.ofList path)))
            else
              match Store.decodeText bytes with
              | .error why => .error (.file shownTarget (.unreadableInclude why))
              | .ok text => do
                let nested ← expandIncludes store ((parent? target).getD base) (key :: stack)
                  (Scan.uncommentedLines text)
                let others ← expandIncludes store base stack rest
                return nested ++ others
    else do
      let others ← expandIncludes store base stack rest
      return line :: others
termination_by (unexpanded store stack, lines.length)
decreasing_by
  · exact Prod.Lex.left _ _ (unexpanded_cons_lt (Store.mem_keys_of_file? _hfile) _hkey)
  · exact Prod.Lex.right _ (by simp)
  · exact Prod.Lex.right _ (by simp)

theorem expandIncludes_of_plain (store : Store) (base : List Char) (stack : List (List String))
    {lines : List (List Char)}
    (h : ∀ line ∈ lines, includeWord.isPrefixOf (Text.trim line) = false) :
    expandIncludes store base stack lines = .ok (lines.map Text.trim) := by
  induction lines with
  | nil => rw [expandIncludes, List.map_nil]
  | cons line rest ih =>
    rw [expandIncludes, h line List.mem_cons_self, ih fun l hl => h l (List.mem_cons_of_mem _ hl)]
    rfl

/-- Expanding lines is expanding the first, and then the others. -/
theorem expandIncludes_cons (store : Store) (base : List Char) (stack : List (List String))
    (raw : List Char) (rest : List (List Char)) :
    expandIncludes store base stack (raw :: rest)
      = (expandIncludes store base stack [raw]).bind fun nested =>
          (expandIncludes store base stack rest).map (nested ++ ·) := by
  rw [expandIncludes, expandIncludes]
  split
  · cases includedPath? (Text.trim raw) with
    | none => rfl
    | some path =>
      dsimp only
      cases includeTarget store base path with
      | error f => rfl
      | ok target =>
        dsimp only
        split
        · rfl
        · split
          · rfl
          · split
            · rfl
            · rw [expandIncludes]
              cases expandIncludes store _ _ _ <;> cases expandIncludes store base stack rest <;>
                simp [Except.bind, Except.map, bind, pure, Except.pure]
  · rw [expandIncludes]
    cases expandIncludes store base stack rest <;> rfl

theorem expandIncludes_append (store : Store) (base : List Char) (stack : List (List String))
    (lines more : List (List Char)) :
    expandIncludes store base stack (lines ++ more)
      = (expandIncludes store base stack lines).bind fun nested =>
          (expandIncludes store base stack more).map (nested ++ ·) := by
  induction lines with
  | nil =>
    rw [List.nil_append, expandIncludes]
    cases expandIncludes store base stack more <;> rfl
  | cons raw rest ih =>
    rw [List.cons_append, expandIncludes_cons, expandIncludes_cons _ _ _ raw rest, ih]
    cases expandIncludes store base stack [raw] with
    | error f => rfl
    | ok first =>
      cases expandIncludes store base stack rest with
      | error f => rfl
      | ok others =>
        cases expandIncludes store base stack more <;>
          simp [Except.bind, Except.map, List.append_assoc]

end ConfigLang.Document
