import ConfigLang.Fault.Basic
import ConfigLang.Value.KeyPath

set_option autoImplicit false

/-! # The configuration tree

The object that a document builds. Writing at a path makes the objects on its way; it fails where
the way leads through a value that is not an object, and then nothing is written. -/

namespace ConfigLang

/-- A configuration, from the root down. -/
structure Tree where
  root : List (String × Value) := []

namespace Tree

def toValue (t : Tree) : Value :=
  .object t.root

/-! ## Looking up -/

/-- The value at a path of keys; an empty path leads to none. -/
def lookup (t : Tree) : List String → Option Value
  | [] => none
  | key :: path => (t.root.lookup key).bind (·.at? path)

/-- The value at the path that a text with points stands for. -/
def get? (t : Tree) (path : List Char) : Option Value :=
  t.lookup (KeyPath.ofText path)

/-! ## Writing -/

/-- Write below `key` in the entries at the path `way`. -/
def writeBelow (way : List String) (entries : List (String × Value)) (key : String) (v : Value) :
    List String → Except Mistyped (List (String × Value))
  | [] => .ok (Entries.insert key v entries)
  | next :: rest =>
    match entries.lookup key with
    | none => do
      let inner ← writeBelow (way ++ [key]) [] next v rest
      return Entries.insert key (.object inner) entries
    | some (.object held) => do
      let inner ← writeBelow (way ++ [key]) held next v rest
      return Entries.insert key (.object inner) entries
    | some other =>
      .error (.blockedPath (rest.getLastD next) (KeyPath.text (way ++ [key])) other.kind)

/-- Write a value at a path of keys. -/
def setPath (t : Tree) (path : List String) (v : Value) : Except Fault Tree :=
  match path with
  | [] => .error (.malformed .emptyPath)
  | key :: rest =>
    match writeBelow [] t.root key v rest with
    | .ok root => .ok ⟨root⟩
    | .error cause => .error (.mistyped cause)

/-- Write a value at a key of a section. -/
def write (t : Tree) (sectionPath : List String) (key : String) (v : Value) : Except Fault Tree :=
  t.setPath (sectionPath ++ [key]) v

end Tree

end ConfigLang
