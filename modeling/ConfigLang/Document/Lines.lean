import ConfigLang.Document.Block
import ConfigLang.Document.Line
import ConfigLang.Resolve
import ConfigLang.Tree.Defaults

set_option autoImplicit false

/-! # Building a tree from lines

Lines are taken one after another. A header changes the current section; a statement resolves its
value against what is built so far and writes it at once, so no value depends on later lines. The
header of the defaults ends this part: below it every statement records a default for a path from
the root, and no other header may follow. -/

namespace ConfigLang.Document

/-- What the lines read so far have built. -/
structure Building where
  tree : Tree := {}
  sectionPath : List String := []
  defaults : Defaults := {}

namespace Building

/-- What a value on the next line can refer to. -/
def scope (b : Building) (env : Environment) : Scope :=
  ⟨b.tree, b.sectionPath, env⟩

/-- Resolve the text of a value and write it at a key of the current section. -/
def assign (b : Building) (env : Environment) (key : String) (text : List Char) :
    Except Fault Building := do
  let v ← (b.scope env).resolve text
  let tree ← b.tree.write b.sectionPath key v
  return { b with tree := tree }

/-- Resolve the text of a value and record it as the default of a path. -/
def recordDefault (b : Building) (env : Environment) (path : String) (text : List Char) :
    Except Fault Building := do
  let v ← (b.scope env).resolve text
  return { b with defaults := b.defaults.insert path v }

/-- Change the current section to the one that a header names. -/
def enter (b : Building) (name : List Char) : Building :=
  { b with sectionPath := KeyPath.ofHeader name }

/-- Fill in the defaults recorded so far. -/
def applyDefaults (b : Building) : Outcome Building :=
  match b.tree.applyDefaults b.defaults with
  | .done tree => .done { b with tree := tree }
  | .stopped tree f => .stopped { b with tree := tree } f

end Building

/-! ## Defaults -/

/-- Read the lines below the header of the defaults. -/
def readDefaults (env : Environment) (b : Building) (lines : List (List Char)) :
    Outcome Building :=
  match lines with
  | [] => .done b
  | raw :: rest =>
    let line := Text.trim raw
    if (header? line).isSome then
      .stopped b (.malformed (.headerAfterDefaults (String.ofList line)))
    else if line.contains '=' then
      match splitStatement line with
      | .error cause => .stopped b (.malformed cause)
      | .ok (path, initial) =>
        match b.recordDefault env path (captureBlock initial rest).1 with
        | .error f => .stopped b f
        | .ok b => readDefaults env b (captureBlock initial rest).2
    else readDefaults env b rest
termination_by lines.length
decreasing_by
  · have := length_captureBlock_le initial rest
    simp only [List.length_cons]
    omega
  · simp

/-! ## All lines -/

/-- Read the lines of a document. -/
def readLines (env : Environment) (b : Building) (lines : List (List Char)) : Outcome Building :=
  match lines with
  | [] => .done b
  | raw :: rest =>
    let line := Text.trim raw
    if line.isEmpty then readLines env b rest
    else
      match header? line with
      | some name =>
        if isDefaultsName name then readDefaults env b rest
        else readLines env (b.enter name) rest
      | none =>
        match statement? line with
        | .error cause => .stopped b (.malformed cause)
        | .ok none => readLines env b rest
        | .ok (some (key, initial)) =>
          match b.assign env key (captureBlock initial rest).1 with
          | .error f => .stopped b f
          | .ok b => readLines env b (captureBlock initial rest).2
termination_by lines.length
decreasing_by
  · simp
  · simp
  · simp
  · have := length_captureBlock_le initial rest
    simp only [List.length_cons]
    omega

/-- Read all lines and fill in the defaults that they record. -/
def build (env : Environment) (lines : List (List Char)) : Outcome Building :=
  match readLines env {} lines with
  | .done b => b.applyDefaults
  | .stopped b f => .stopped b f

end ConfigLang.Document
