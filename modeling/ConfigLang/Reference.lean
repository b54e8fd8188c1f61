import ConfigLang.Environment
import ConfigLang.Text.Quoted
import ConfigLang.Tree.Basic

set_option autoImplicit false

/-! # References

A reference names a value that the document has already defined: a path of keys, and behind it
accessors in brackets. The path is looked up from the root first and then from the current section.
Digits in brackets pick an item of an array; anything else is the key of an object, without the
quotes around it. -/

namespace ConfigLang

/-- What a text on the right-hand side of a statement can refer to. -/
structure Scope where
  tree : Tree := {}
  sectionPath : List String := []
  env : Environment := {}

/-! ## Accessors -/

/-- What stands before the bracket that closes an accessor, and what follows it; `inner` counts the
    brackets that are open inside. -/
def readAccessor? (inner : Nat) : List Char → Option (List Char × List Char)
  | [] => none
  | c :: rest =>
    if c = ']' then
      match inner with
      | 0 => some ([], rest)
      | inner + 1 => (readAccessor? inner rest).map fun (text, after) => (c :: text, after)
    else
      (readAccessor? (if c = '[' then inner + 1 else inner) rest).map
        fun (text, after) => (c :: text, after)

theorem length_readAccessor? {inner : Nat} {text accessor after : List Char}
    (h : readAccessor? inner text = some (accessor, after)) : after.length < text.length := by
  induction text generalizing inner accessor with
  | nil => simp [readAccessor?] at h
  | cons c rest ih =>
    unfold readAccessor? at h
    split at h
    · split at h
      · simp only [Option.some.injEq, Prod.mk.injEq] at h
        rw [← h.2]
        simp
      · simp only [Option.map_eq_some_iff, Prod.mk.injEq, Prod.exists] at h
        obtain ⟨a, b, hread, _, rfl⟩ := h
        have := ih hread
        simp only [List.length_cons]
        omega
    · simp only [Option.map_eq_some_iff, Prod.mk.injEq, Prod.exists] at h
      obtain ⟨a, b, hread, _, rfl⟩ := h
      have := ih hread
      simp only [List.length_cons]
      omega

/-- The characters outside brackets, and the accessors inside them. -/
def splitAccessors? (text : List Char) : Option (List Char × List (List Char)) :=
  match text with
  | [] => some ([], [])
  | c :: rest =>
    if c = '[' then
      match _h : readAccessor? 0 rest with
      | none => none
      | some (accessor, after) =>
        (splitAccessors? after).map fun (base, accessors) => (base, accessor :: accessors)
    else (splitAccessors? rest).map fun (base, accessors) => (c :: base, accessors)
termination_by text.length
decreasing_by
  · have := length_readAccessor? _h
    simp only [List.length_cons]
    omega
  · simp

/-- The text less the quotes at both ends. -/
def trimQuotes (text : List Char) : List Char :=
  ((text.dropWhile Text.isQuote).reverse.dropWhile Text.isQuote).reverse

/-- The item or member of a value that an accessor of the reference `whole` picks. -/
def Value.access (v : Value) (accessor whole : List Char) : Except Fault Value :=
  let text := String.ofList whole
  if Number.isDigits accessor then
    let index := String.ofList accessor
    match v.items? with
    | none => .error (.unresolved (.indexOfOther v.kind index text))
    | some items =>
      match items[Number.ofDigits accessor]? with
      | some item => .ok item
      | none => .error (.unresolved (.indexBeyondEnd index items.length text))
  else
    let key := String.ofList (trimQuotes accessor)
    match v.entries? with
    | none => .error (.unresolved (.keyOfOther key v.kind text))
    | some entries =>
      match entries.lookup key with
      | some held => .ok held
      | none => .error (.unresolved (.missingKey key text))

namespace Scope

/-! ## Paths -/

/-- The value at a path, from the root or else from the current section. -/
def find? (scope : Scope) (path : List String) : Option Value :=
  match scope.tree.lookup path with
  | some v => some v
  | none =>
    if scope.sectionPath.isEmpty then none else scope.tree.lookup (scope.sectionPath ++ path)

/-- The value at the path that a text with points stands for. -/
def lookupPath (scope : Scope) (path : List Char) : Except Fault Value :=
  match scope.find? (KeyPath.ofText path) with
  | some v => .ok v
  | none => .error (.unresolved (.unknownReference (String.ofList path)))

/-! ## References -/

/-- The value that a reference with accessors names. -/
def resolveIndexed (scope : Scope) (text : List Char) : Except Fault Value :=
  match splitAccessors? text with
  | none => .error (.malformed (.brackets (String.ofList text)))
  | some (base, accessors) => do
    let v ← scope.lookupPath base
    accessors.foldlM (fun v accessor => v.access accessor text) v

/-- The value that a reference names. -/
def resolveReference (scope : Scope) (text : List Char) : Except Fault Value :=
  if text.contains '[' && text.contains ']' then scope.resolveIndexed text
  else scope.lookupPath text

end Scope

end ConfigLang
