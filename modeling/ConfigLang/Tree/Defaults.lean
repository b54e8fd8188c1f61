import ConfigLang.Outcome
import ConfigLang.Tree.Basic

set_option autoImplicit false

/-! # Default values

Values for paths that the document leaves missing or null. They are filled in one after another, so
a default sees what those before it have written. -/

namespace ConfigLang

/-- The defaults of a document, by the text of their path; no path is there twice. -/
structure Defaults where
  entries : List (String × Value) := []
  nodup_paths : (Entries.keys entries).Nodup := by exact List.nodup_nil

namespace Defaults

/-- Record a default; a path that is there keeps its place and takes the new value. -/
def insert (d : Defaults) (path : String) (v : Value) : Defaults :=
  ⟨Entries.insert path v d.entries, Entries.nodup_keys_insert path v d.nodup_paths⟩

/-- The defaults that recording pairs one after another leaves. -/
def ofPairs (pairs : List (String × Value)) : Defaults :=
  ⟨Entries.ofPairs pairs, Entries.nodup_keys_ofPairs pairs⟩

def get? (d : Defaults) (path : String) : Option Value :=
  d.entries.lookup path

end Defaults

namespace Tree

/-- Whether the value at a path is missing or null. -/
def lacks (t : Tree) (path : List String) : Bool :=
  match t.lookup path with
  | none => true
  | some v => v.isNull

/-- Write a default where the tree lacks its path. -/
def fill (t : Tree) (path : List String) (v : Value) : Except Fault Tree :=
  if t.lacks path then t.setPath path v else .ok t

/-- Fill in defaults in their order, up to the first that cannot be written. -/
def fillAll (t : Tree) : List (String × Value) → Outcome Tree
  | [] => .done t
  | (path, v) :: rest =>
    match t.fill (KeyPath.ofText path.toList) v with
    | .ok filled => filled.fillAll rest
    | .error f => .stopped t f

/-- Fill in the defaults of a document. -/
def applyDefaults (t : Tree) (d : Defaults) : Outcome Tree :=
  t.fillAll d.entries

end Tree

end ConfigLang
