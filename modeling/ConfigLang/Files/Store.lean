import ConfigLang.Fault.Cause
import ConfigLang.Files.Path

set_option autoImplicit false

/-! # The files that a document can include

A store is a finite table of files and directories by the names that lead to them from the root.
Looking up a path walks part by part from the root or the working directory, and gives the names of
what it finds: one key for each file, however the path is written. -/

namespace ConfigLang.Files

/-- What stands at a place of a store. -/
inductive Node where
  | file (bytes : ByteArray)
  | directory

/-- Files and directories, and the two directories that paths can start from. -/
structure Store where
  nodes : List (List String × Node) := []
  workingDirectory : List Char := ['/']
  /-- The home directory, where it is known. -/
  home : Option (List Char) := some ['/']

namespace Store

/-- What stands at the end of a row of names; on the way to anything stand directories. -/
def node? (store : Store) (key : List String) : Option Node :=
  match store.nodes.lookup key with
  | some node => some node
  | none =>
    if key.isEmpty || store.nodes.any (fun entry => key.isPrefixOf entry.1) then some .directory
    else none

/-- The longest name, in bytes. -/
def nameLimit : Nat := 255

/-- The longest path, in bytes. -/
def pathLimit : Nat := 4095

/-- Walk from a place along the parts of a path. -/
def walk (store : Store) (key : List String) : List (List Char) → Except ReadFailure (List String)
  | [] => .ok key
  | part :: rest =>
    match store.node? key with
    | some (.file _) => .error .notDirectory
    | none => .error .notFound
    | some .directory =>
      if part = [] ∨ part = ['.'] then store.walk key rest
      else if part = ['.', '.'] then store.walk key.dropLast rest
      else if nameLimit < (String.ofList part).utf8ByteSize then .error .nameTooLong
      else
        let next := key ++ [String.ofList part]
        if (store.node? next).isSome then store.walk next rest else .error .notFound

/-- The key of what a path leads to. -/
def locate (store : Store) (path : List Char) : Except ReadFailure (List String) :=
  if path.contains '\x00' then .error .nulInName
  else if path.isEmpty then .error .notFound
  else if pathLimit < (String.ofList path).utf8ByteSize then .error .nameTooLong
  else store.walk [] (Text.splitOn '/' (join store.workingDirectory path))

/-- The bytes of the file at a key. -/
def fileAt? (store : Store) (key : List String) : Option ByteArray :=
  match store.nodes.lookup key with
  | some (.file bytes) => some bytes
  | _ => none

/-- The key and the bytes of the file that a path leads to. -/
def file? (store : Store) (path : List Char) : Option (List String × ByteArray) :=
  match store.locate path with
  | .error _ => none
  | .ok key => (store.fileAt? key).map fun bytes => (key, bytes)

/-- The text that bytes encode. -/
def decodeText (bytes : ByteArray) : Except ReadFailure (List Char) :=
  match String.fromUTF8? bytes with
  | some text => .ok text.toList
  | none => .error .notText

/-- The key and the text of the file that a path leads to, or why it cannot be read. -/
def read (store : Store) (path : List Char) : Except ReadFailure (List String × List Char) := do
  let key ← store.locate path
  match store.fileAt? key with
  | none => throw .isDirectory
  | some bytes => return (key, ← decodeText bytes)

theorem mem_keys_of_file? {store : Store} {path : List Char} {key : List String}
    {bytes : ByteArray} (h : store.file? path = some (key, bytes)) :
    key ∈ store.nodes.map Prod.fst := by
  unfold file? at h
  split at h
  · simp at h
  next found _ =>
    simp only [Option.map_eq_some_iff, Prod.mk.injEq] at h
    obtain ⟨held, hheld, rfl, rfl⟩ := h
    unfold fileAt? at hheld
    split at hheld
    next hlookup =>
      obtain ⟨before, after, heq, -⟩ := List.lookup_eq_some_iff.mp hlookup
      rw [heq]
      simp
    next => simp at hheld

end Store

end ConfigLang.Files
