import ConfigLang.Outcome
import ConfigLang.Tree.Basic

set_option autoImplicit false

/-! # Writing in place

A tree with one owner is written where it stands. A cursor goes down from the root, puts an empty
object wherever one is missing, and writes in the last object that it opens. When it comes to a
value that is not an object it stops, and what it has put into the tree until then would stay there.
-/

namespace ConfigLang

namespace Entries

variable {α : Type}

/-- What a key holds, where `held` is put if it holds nothing; and the entries behind that. -/
def orInsert (key : String) (held : α) (entries : List (String × α)) : α × List (String × α) :=
  match entries.lookup key with
  | some there => (there, entries)
  | none => (held, insert key held entries)

end Entries

/-- The entries of the object that is open, and those of the objects around it, the innermost first,
    each behind the key that leads on from it. -/
structure Cursor where
  entries : List (String × Value)
  around : List (String × List (String × Value)) := []

namespace Cursor

/-- The whole tree around a cursor. -/
def tree (c : Cursor) : Tree :=
  ⟨c.around.foldl (fun inner outer => Entries.insert outer.1 (.object inner) outer.2) c.entries⟩

/-- Open the objects at `keys`, one inside the other, and write at the key `last` of the innermost;
    `way` leads to the object that is open so far. -/
def write (c : Cursor) (way : List String) (last : String) (v : Value) :
    List String → Outcome Tree
  | [] => .done ({ c with entries := Entries.insert last v c.entries } : Cursor).tree
  | key :: keys =>
    match Entries.orInsert key (.object []) c.entries with
    | (.object inner, entries) =>
      write ⟨inner, (key, entries) :: c.around⟩ (way ++ [key]) last v keys
    | (other, entries) =>
      .stopped ({ c with entries := entries } : Cursor).tree
        (.mistyped (.blockedPath last (KeyPath.text (way ++ [key])) other.kind))

end Cursor

/-- Write a value at a path of keys, in place. -/
def Tree.setPathInPlace (t : Tree) (path : List String) (v : Value) : Outcome Tree :=
  match path.getLast? with
  | none => .stopped t (.malformed .emptyPath)
  | some last => Cursor.write ⟨t.root, []⟩ [] last v path.dropLast

end ConfigLang
