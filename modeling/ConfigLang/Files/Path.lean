import ConfigLang.Text.Split

set_option autoImplicit false

/-! # Paths of files

A path is a text with slashes between its parts. Joining leaves both texts as they are, so that
messages show a path the way it was written. -/

namespace ConfigLang.Files

def isAbsolute (path : List Char) : Bool :=
  path.head? == some '/'

/-- The path from a directory; an absolute path stays as it is. -/
def join (base path : List Char) : List Char :=
  if isAbsolute path then path
  else if base.isEmpty || base.getLast? == some '/' then base ++ path
  else base ++ '/' :: path

/-- The parts of a path without those at the end that name nothing, where `parts` is in reverse; the
    first part always stays. -/
def dropIdle : List (List Char) → List (List Char)
  | [] => []
  | [first] => [first]
  | part :: rest => if part = [] ∨ part = ['.'] then dropIdle rest else part :: rest

/-- The path of the directory that a path leads into last; the root and the empty path have none. -/
def parent? (path : List Char) : Option (List Char) :=
  match dropIdle (Text.splitOn '/' path).reverse with
  | [] => none
  | [first] => if first.isEmpty then none else some []
  | _ :: rest =>
    match dropIdle rest with
    | [[]] => some ['/']
    | parts => some (['/'].intercalate parts.reverse)

end ConfigLang.Files
