import ConfigLang.Document.Include
import ConfigLang.Document.Lines

set_option autoImplicit false

/-! # Sessions

A session parses documents against one environment, each from an empty tree, and keeps what the last
one has built. Parsing a file makes its directory the one that later includes start from. -/

namespace ConfigLang

open Document Files

structure Session where
  env : Environment := {}
  /-- The directory that relative includes of a text start from. -/
  base : List Char := []
  building : Building := {}

namespace Session

/-- A session that has parsed nothing yet, with includes from the working directory. -/
def new (store : Store) (env : Environment) : Session where
  env := env
  base := store.workingDirectory

/-- Parse a text, where `stack` holds the files that it comes from. -/
def parseFrom (s : Session) (store : Store) (stack : List (List String)) (text : List Char) :
    Outcome Session :=
  match expandIncludes store s.base stack (Scan.uncommentedLines text) with
  | .error f => .stopped { s with building := {} } f
  | .ok lines =>
    match build s.env lines with
    | .done b => .done { s with building := b }
    | .stopped b f => .stopped { s with building := b } f

/-- Parsing expands the lines less their comments and then builds the tree. -/
theorem parseFrom_eq (s : Session) (store : Store) (stack : List (List String))
    (text : List Char) :
    (s.parseFrom store stack text).result.map (·.building.tree)
      = (expandIncludes store s.base stack (Scan.uncommentedLines text)).bind
          fun lines => (build s.env lines).result.map (·.tree) := by
  rw [parseFrom]
  cases expandIncludes store s.base stack (Scan.uncommentedLines text) with
  | error f => rfl
  | ok lines =>
    dsimp only
    cases hbuild : build s.env lines <;> simp [hbuild, Except.bind, Outcome.result, Except.map]

/-- Parse a document held in memory. -/
def parseText (s : Session) (store : Store) (text : List Char) : Outcome Session :=
  s.parseFrom store [] text

/-- Parse a file; a file that cannot be read leaves the session as it is. -/
def parseFile (s : Session) (store : Store) (path : List Char) : Outcome Session :=
  match store.read path with
  | .error why => .stopped s (.file (String.ofList path) (.unreadable why))
  | .ok (key, text) =>
    { s with base := (parent? path).getD s.base }.parseFrom store [key] text

/-- What a text can refer to after the last document. -/
def scope (s : Session) : Scope :=
  s.building.scope s.env

end Session

/-! ## One document -/

/-- The tree of a document held in memory. -/
def parseText (store : Store) (env : Environment) (text : List Char) : Except Fault Tree :=
  ((Session.new store env).parseText store text).result.map (·.building.tree)

theorem parseText_eq (store : Store) (env : Environment) (text : List Char) :
    parseText store env text
      = (expandIncludes store store.workingDirectory [] (Scan.uncommentedLines text)).bind
          fun lines => (build env lines).result.map (·.tree) :=
  (Session.new store env).parseFrom_eq store [] text

/-- A document that includes no file is built from its lines as they stand. -/
theorem parseText_of_plain (store : Store) (env : Environment) {text : List Char}
    (hinclude : ∀ line ∈ Scan.uncommentedLines text,
      includeWord.isPrefixOf (Text.trim line) = false) :
    parseText store env text
      = (build env ((Scan.uncommentedLines text).map Text.trim)).result.map (·.tree) := by
  rw [parseText_eq, expandIncludes_of_plain store store.workingDirectory [] hinclude]
  rfl

/-- The tree of a file. -/
def parseFile (store : Store) (env : Environment) (path : List Char) : Except Fault Tree :=
  ((Session.new store env).parseFile store path).result.map (·.building.tree)

end ConfigLang
