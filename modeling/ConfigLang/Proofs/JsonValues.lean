import ConfigLang.Proofs.JsonTokens
import ConfigLang.Resolve

set_option autoImplicit false

/-! # Objects from their texts

The reader of JSON goes through the tokens of a value and is left with the value, under whatever
arrays and objects are open around it, as long as they and those of the value are not too many
(`Json.Fits.reads`). Main statement: the text of an object that JSON holds resolves to the same
object, with its entries in the same order at every level (`Scope.resolve_text_object`). -/

namespace ConfigLang

namespace Json

/-! ## Open arrays and objects -/

/-- Whatever is open around a value, the reader goes through its tokens and is left with it, if that
    leaves `depth` levels to open. -/
def Reads (depth : Nat) (v : Value) : Prop :=
  ∀ (opened : List Frame) (rest : List Token), opened.length + depth ≤ depthLimit →
    readValue? opened (tokensOf v ++ rest) = giveValue? opened v rest

theorem head?_tokensOf_ne (v : Value) (rest : List Token) :
    (tokensOf v ++ rest).head? ≠ some .closeBracket := by
  cases v <;> simp [tokensOf]

/-- A bracket opens an array, unless it is closed at once. -/
theorem readValue?_openBracket {opened : List Frame} {tokens : List Token}
    (hopened : opened.length < depthLimit) (h : tokens.head? ≠ some .closeBracket) :
    readValue? opened (.openBracket :: tokens) = readValue? (.array [] :: opened) tokens := by
  cases tokens with
  | nil => simp [readValue?, hopened]
  | cons token rest => cases token <;> simp_all [readValue?]

variable {depth : Nat} {opened : List Frame}

/-- The items behind the current one are put behind it, up to the closing bracket. -/
theorem giveValue?_items {items : List Value} (h : ∀ item ∈ items, Reads depth item)
    (hopened : opened.length + 1 + depth ≤ depthLimit) (before : List Value) (v : Value)
    (rest : List Token) :
    giveValue? (.array before :: opened) v
        (items.flatMap (fun item => .comma :: tokensOf item) ++ .closeBracket :: rest)
      = giveValue? opened (.array (before.reverse ++ v :: items)) rest := by
  induction items generalizing before v with
  | nil => simp [giveValue?]
  | cons item items ih =>
    obtain ⟨hitem, hitems⟩ := List.forall_mem_cons.mp h
    rw [List.flatMap_cons, List.append_assoc, List.cons_append, giveValue?,
      hitem (.array (v :: before) :: opened) _ hopened,
      ih hitems (v :: before) item, List.reverse_cons, List.append_assoc]
    rfl

/-- The entries behind the current one are written one after another, up to the closing brace. -/
theorem giveValue?_entries {entries : List (String × Value)}
    (h : ∀ entry ∈ entries, Reads depth entry.2) (hopened : opened.length + 1 + depth ≤ depthLimit)
    (before : List (String × Value)) (key : String) (v : Value) (rest : List Token) :
    giveValue? (.object before key :: opened) v
        (entries.flatMap (fun entry =>
          .comma :: .string entry.1.toList :: .colon :: tokensOf entry.2) ++ .closeBrace :: rest)
      = giveValue? opened (.object (((key, v) :: entries).foldl
          (fun done entry => Entries.insert entry.1 entry.2 done) before)) rest := by
  induction entries generalizing before key v with
  | nil => simp [giveValue?]
  | cons entry entries ih =>
    obtain ⟨hentry, hentries⟩ := List.forall_mem_cons.mp h
    rw [List.flatMap_cons, List.append_assoc, List.cons_append, List.cons_append, List.cons_append,
      giveValue?, String.ofList_toList,
      hentry (.object (Entries.insert key v before) entry.1 :: opened) _ hopened, ih hentries]
    rfl

/-! ## Whole values -/

theorem reads_array {items : List Value} (h : ∀ item ∈ items, Reads depth item) :
    Reads (depth + 1) (.array items) := by
  intro opened rest hopened
  have hlevel : opened.length < depthLimit := by omega
  cases items with
  | nil => simp [tokensOf, itemTokens, readValue?, hlevel]
  | cons item items =>
    obtain ⟨hitem, hitems⟩ := List.forall_mem_cons.mp h
    have htokens : tokensOf (.array (item :: items)) ++ rest
        = .openBracket :: (tokensOf item
          ++ (items.flatMap (fun item => .comma :: tokensOf item) ++ .closeBracket :: rest)) := by
      rw [tokensOf, itemTokens_eq_map, List.map_cons, Text.intercalate_cons_flatMap,
        List.flatMap_map]
      simp
    rw [htokens, readValue?_openBracket hlevel (head?_tokensOf_ne item _),
      hitem _ _ (by rw [List.length_cons]; omega), giveValue?_items hitems (by omega)]
    rfl

/-- An object is read as what writing its entries one after another leaves. -/
theorem readValue?_object {entries : List (String × Value)}
    (h : ∀ entry ∈ entries, Reads depth entry.2) (hopened : opened.length + (depth + 1) ≤ depthLimit)
    (rest : List Token) :
    readValue? opened (tokensOf (.object entries) ++ rest)
      = giveValue? opened (.object (Entries.ofPairs entries)) rest := by
  have hlevel : opened.length < depthLimit := by omega
  cases entries with
  | nil => simp [tokensOf, entryTokens, readValue?, hlevel, Entries.ofPairs]
  | cons entry entries =>
    obtain ⟨hentry, hentries⟩ := List.forall_mem_cons.mp h
    have htokens : tokensOf (.object (entry :: entries)) ++ rest
        = .openBrace :: .string entry.1.toList :: .colon :: (tokensOf entry.2
          ++ (entries.flatMap (fun entry =>
            .comma :: .string entry.1.toList :: .colon :: tokensOf entry.2)
            ++ .closeBrace :: rest)) := by
      rw [tokensOf, entryTokens_eq_map, List.map_cons, Text.intercalate_cons_flatMap,
        List.flatMap_map]
      simp
    rw [htokens, readValue?, if_pos hlevel, String.ofList_toList,
      hentry _ _ (by rw [List.length_cons]; omega), giveValue?_entries hentries (by omega)]
    rfl

theorem Fits.reads {v : Value} (h : Fits depth v) : Reads depth v := by
  induction h with
  | null | bool _ | int _ | string _ =>
    intro opened rest _
    simp [tokensOf, readValue?]
  | array _ ih => exact reads_array ih
  | object hkeys _ ih =>
    intro opened rest hopened
    rw [readValue?_object ih hopened, Entries.ofPairs_of_nodup hkeys]

/-- The text of a value that JSON holds is read as the value. -/
theorem read?_write {v : Value} (h : Fits depthLimit v) : read? (write v) = some v := by
  have htokens : tokens? (write v) = some (tokensOf v) := by
    have hspells := h.spells [] (fun c hc => nomatch hc)
    rw [List.append_nil, tokens?] at hspells
    simpa using hspells
  have hread : readValue? [] (tokensOf v) = some v := by
    have hreads := h.reads [] [] (by simp)
    rw [List.append_nil] at hreads
    rw [hreads]
    simp [giveValue?]
  rw [read?, htokens, Option.bind_some, hread]

/-- Null in as many arrays as given. -/
def nested : Nat → Value
  | 0 => .null
  | n + 1 => .array [nested n]

theorem fits_nested (n : Nat) : Fits n (nested n) := by
  induction n with
  | zero => exact .null
  | succ n ih => exact .array (List.forall_mem_singleton.mpr ih)

end Json

/-! ## Resolving -/

/-- A text in braces is read as JSON. -/
theorem Literal.ofText_of_braced {text inner : List Char} {v : Value}
    (h : Text.trim text = '\x7b' :: (inner ++ ['\x7d']))
    (hread : Json.read? (Text.trim text) = some v) : Literal.ofText text = .ok (.value v) := by
  have hword : wordValue? (Text.trim text) = none := by
    rw [h]
    exact wordValue?_of_head_ne (by decide)
  have hquoted : Text.unquoted? (Text.trim text) = none := by
    rw [h, Text.unquoted?, Text.between?_of_head_ne (by simp), Text.between?_of_head_ne (by simp)]
  have hbracketed : isBracketed (Text.trim text) = false := by
    rw [h, isBracketed, Text.between?_of_head_ne (by simp), Option.isSome_none]
  have hbraced : isBraced (Text.trim text) = true := by
    rw [h, isBraced, Text.between?_append_singleton, Option.isSome_some]
  rw [ofText, ofTrimmed, hword, hquoted]
  simp only [hbracketed, hbraced, hread, Bool.false_eq_true, if_false, if_true]

namespace Scope

/-- A text in braces resolves to its JSON, whatever else there is to look up. -/
theorem resolve_of_braced (scope : Scope) {text inner : List Char} {v : Value}
    (h : text = '\x7b' :: (inner ++ ['\x7d'])) (hread : Json.read? text = some v) :
    scope.resolve text = .ok v := by
  have htrim : Text.trim text = '\x7b' :: (inner ++ ['\x7d']) := by
    rw [h]
    exact Text.trim_enclosed (by decide) (by decide) inner
  have hexpand : scope.env.expand? (Text.trim text) = none := by
    rw [htrim]
    exact scope.env.expand?_of_head_ne (by simp)
  have hsimple : isSimpleLiteral (Text.trim text) = true := by
    rw [htrim, ← h]
    simp [isSimpleLiteral, isBraced, htrim, Text.between?_append_singleton]
  rw [resolve, resolveBy_of_simple _ _ (by rw [htrim]; exact List.cons_ne_nil _ _) hexpand hsimple,
    htrim, ← h, Literal.ofText_of_braced htrim (by rw [htrim, ← h]; exact hread)]
  rfl

/-- The text of an object that JSON holds resolves to the object, wherever it stands. -/
theorem resolve_text_object (scope : Scope) {entries : List (String × Value)}
    (h : Json.Fits Json.depthLimit (.object entries)) :
    scope.resolve (Value.object entries).text = .ok (.object entries) := by
  have hread : Json.read? (Value.object entries).text = some (.object entries) := by
    rw [Value.text]
    exact Json.read?_write h
  have hbraced : ∃ inner, (Value.object entries).text = '\x7b' :: (inner ++ ['\x7d']) := by
    rw [Value.text, Json.write]
    exact ⟨_, List.cons_append⟩
  obtain ⟨inner, htext⟩ := hbraced
  exact scope.resolve_of_braced htext hread

/-- Escapes of all forms, both ends of the integers, empty containers, keys that are not in
    alphabetic order, and as many levels as there may be. -/
theorem resolve_text_object_nested :
    let entries : List (String × Value) :=
      [("k\"\\\n\x01é", .string "/\t\x1f😀"), ("", .array [.object [], .array [], .bool true]),
        ("b", .object [("z", .int Int64.minValue), ("a", .int Int64.maxValue)]),
        ("$ENV\x7ba\x7d", Json.nested 126)]
    Json.Fits Json.depthLimit (.object entries)
      ∧ (Scope.mk ⟨[("b", .int 1)]⟩ ["b"] {}).resolve (Value.object entries).text
        = .ok (.object entries) := by
  intro entries
  have hfits : Json.Fits Json.depthLimit (.object entries) := by
    refine .object (by decide) ?_
    simp only [entries, List.forall_mem_cons]
    refine ⟨.string _, .array ?_, .object (by decide) ?_, Json.fits_nested 126,
      List.forall_mem_nil _⟩
    · simp only [List.forall_mem_cons]
      exact ⟨.object List.nodup_nil (List.forall_mem_nil _), .array (List.forall_mem_nil _),
        .bool true, List.forall_mem_nil _⟩
    · simp only [List.forall_mem_cons]
      exact ⟨.int _, .int _, List.forall_mem_nil _⟩
  exact ⟨hfits, resolve_text_object _ hfits⟩

end Scope

end ConfigLang
