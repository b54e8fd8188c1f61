import ConfigLang.Document.Line
import ConfigLang.Scan.Comment
import ConfigLang.Value.KeyPath

set_option autoImplicit false

/-! # Where a path is defined

To point a user at a line, the source of a configuration is searched for the statement that defines
a path. The last definition counts; one among the defaults counts only if nothing before it does. -/

namespace ConfigLang.Config

/-- What the search knows behind the lines it has passed. -/
structure Search where
  sectionPath : List String := []
  inDefaults : Bool := false
  found? : Option Place := none

namespace Search

/-- The text of the path that a key stands for. -/
def fullPath (s : Search) (key : List Char) : String :=
  if s.inDefaults || s.sectionPath.isEmpty then String.ofList key
  else KeyPath.text s.sectionPath ++ "." ++ String.ofList key

/-- Go behind a section header. -/
def enter (s : Search) (name : List Char) : Search :=
  if Document.isDefaultsName name then { s with inDefaults := true }
  else { s with inDefaults := false, sectionPath := KeyPath.ofHeader name }

/-- Pass one line, given with its number. -/
def pass (path : String) (s : Search) (numbered : List Char × Nat) : Search :=
  let line := Text.trim (Scan.stripLineComment numbered.1)
  match Document.header? line with
  | some name => s.enter name
  | none =>
    match Scan.keyValue? line with
    | none => s
    | some (key, _) =>
      if s.fullPath key == path && (!s.inDefaults || s.found?.isNone) then
        { s with found? := some ⟨numbered.2, String.ofList line⟩ }
      else s

end Search

/-- The line of a source that defines a path. -/
def locate? (path : String) (source : List Char) : Option Place :=
  (((Text.splitOn '\n' source).zipIdx 1).foldl (Search.pass path) {}).found?

end ConfigLang.Config
