import ConfigLang.Config.Decode
import ConfigLang.Config.Locate
import ConfigLang.Session

set_option autoImplicit false

/-! # Configurations

A parsed document with typed access by dotted paths. It keeps its source, so that a value of the
wrong kind can be reported with the line that defines it. -/

namespace ConfigLang

open Files

/-- A configuration and the text it was parsed from. -/
structure Config where
  root : Value
  source : List Char

namespace Config

/-! ## Loading -/

def ofTree (tree : Tree) (source : List Char) : Config :=
  ⟨tree.toValue, source⟩

/-- The configuration of a document held in memory. -/
def parse (store : Store) (env : Environment) (text : List Char) : Except Fault Config :=
  (parseText store env text).map fun tree => ofTree tree text

/-- The configuration of a file. -/
def load (store : Store) (env : Environment) (path : List Char) : Except Fault Config :=
  match store.read path with
  | .error why => .error (.file (String.ofList path) (.unreadable why))
  | .ok (_, text) => (parseFile store env path).map fun tree => ofTree tree text

/-- The configuration of a file or, if a file of it cannot be read, of another one. -/
def loadOr (store : Store) (env : Environment) (primary fallback : List Char) :
    Except Fault Config :=
  match load store env primary with
  | .error (.file _ _) =>
    match load store env fallback with
    | .error (.file _ last) =>
      let first := String.ofList primary
      let second := String.ofList fallback
      .error (.file (first ++ " (fallback: " ++ second ++ ")") (.neither first second last))
    | other => other
  | other => other

/-! ## Values -/

/-- The value at a dotted path; a blank path leads to the root. -/
def find? (c : Config) (path : List Char) : Option Value :=
  if (Text.trim path).isEmpty then some c.root else c.root.at? (KeyPath.ofText path)

def has (c : Config) (path : List Char) : Bool :=
  (c.find? path).isSome

/-- The value at a dotted path, or that there is none. -/
def value (c : Config) (path : List Char) : Except Fault Value :=
  match c.find? path with
  | some v => .ok v
  | none => .error (.unresolved (.unknownPath (String.ofList path)))

/-- The keys of the object at a dotted path. -/
def keys (c : Config) (path : List Char) : Except Fault (List String) := do
  let v ← c.value path
  match v.entries? with
  | some entries => return Entries.keys entries
  | none => throw (.mistyped (.noKeys (String.ofList path) v.kind))

/-! ## Typed values -/

/-- A cause together with the line that defines the path, if there is one. -/
def mistyped (c : Config) (path : List Char) (cause : Mistyped) : Fault :=
  match locate? (String.ofList path) c.source with
  | some place => .mistypedAt place cause
  | none => .mistyped cause

/-- Read a value that was found at a path. -/
def readAt {α : Type} (c : Config) (reader : Typed.Reader α) (path : List Char) (v : Value) :
    Except Fault α :=
  match reader v with
  | .ok x => .ok x
  | .error cause => .error (c.mistyped path cause)

/-- The value at a path, by a typed reader. -/
def get {α : Type} (c : Config) (reader : Typed.Reader α) (path : List Char) : Except Fault α := do
  let v ← c.value path
  c.readAt reader path v

/-- The value at a path by a typed reader, if the path leads to one. -/
def getOptional {α : Type} (c : Config) (reader : Typed.Reader α) (path : List Char) :
    Except Fault (Option α) :=
  match c.find? path with
  | none => .ok none
  | some v => (c.readAt reader path v).map some

/-- The value at a path by a typed reader, or else `fallback`. -/
def getOr {α : Type} (c : Config) (reader : Typed.Reader α) (path : List Char) (fallback : α) :
    α :=
  match c.get reader path with
  | .ok x => x
  | .error _ => fallback

/-- The value at a path, by a decoder of its JSON form. -/
def decode {α : Type} (c : Config) (decoder : Decode.Decoder α) (path : List Char) :
    Except Fault α := do
  let v ← c.value path
  match decoder (Json.project v) with
  | some x => return x
  | none => throw (c.mistyped path (.undecodable (String.ofList path)))

end Config

end ConfigLang
