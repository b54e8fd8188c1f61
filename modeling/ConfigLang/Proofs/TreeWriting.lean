import ConfigLang.Tree.InPlace

set_option autoImplicit false

/-! # Writing at a path

A write is seen at its path and below it, on the way there, and nowhere else: other paths lead where
they led, and the objects on the way keep their keys in their order (`lookup_setPath`). It fails
where the way leads through a value that is not an object, and then the tree is the one from before,
though the cursor writes in place and puts in objects as it goes (`setPathInPlace_stopped_iff`). -/

namespace ConfigLang

open Entries

/-! ## Paths apart -/

namespace KeyPath

/-- Neither of two paths leads on from the other. -/
def Apart (path other : List String) : Prop :=
  ¬ path <+: other ∧ ¬ other <+: path

instance (path other : List String) : Decidable (Apart path other) :=
  inferInstanceAs (Decidable (_ ∧ _))

/-- Another path leads on from a path, or ends on the way to it, or is apart from it. -/
theorem prefix_or_above_or_apart (path other : List String) :
    path <+: other ∨ (∃ next below, path = other ++ next :: below) ∨ Apart path other := by
  by_cases hbelow : path <+: other
  · exact Or.inl hbelow
  by_cases habove : other <+: path
  · obtain ⟨tail, rfl⟩ := habove
    cases tail with
    | nil => exact absurd (by simp) hbelow
    | cons next below => exact Or.inr (Or.inl ⟨next, below, rfl⟩)
  · exact Or.inr (Or.inr ⟨hbelow, habove⟩)

end KeyPath

open KeyPath

namespace Value

theorem at?_object (entries : List (String × Value)) (key : String) (path : List String) :
    (object entries).at? (key :: path) = (entries.lookup key).bind (·.at? path) :=
  rfl

/-- Nothing stands below the root of an empty object. -/
theorem at?_object_nil {path : List String} (h : path ≠ []) : (object []).at? path = none := by
  cases path with
  | nil => exact absurd rfl h
  | cons key path => rfl

/-- No path leads on from a value that is not an object. -/
theorem at?_cons_of_entries?_eq_none {v : Value} (h : v.entries? = none) (key : String)
    (path : List String) : v.at? (key :: path) = none := by
  rw [at?, h]
  rfl

theorem at?_insert_self (key : String) (v : Value) (entries : List (String × Value))
    (path : List String) : (object (insert key v entries)).at? (key :: path) = v.at? path := by
  rw [at?_object, lookup_insert_self, Option.bind_some]

theorem at?_insert_of_ne {key other : String} (h : other ≠ key) (v : Value)
    (entries : List (String × Value)) (path : List String) :
    (object (insert key v entries)).at? (other :: path) = (object entries).at? (other :: path) := by
  rw [at?_object, at?_object, lookup_insert_of_ne h]

end Value

namespace Tree

open Value

/-! ## One level of a write -/

section

variable {way : List String} {entries written : List (String × Value)} {key : String} {v : Value}
  {rest : List String}

/-- Writing on the way to a deeper path goes on in the object that is there, or in a new one. -/
theorem writeBelow_cons {next : String}
    (h : writeBelow way entries key v (next :: rest) = .ok written) :
    ∃ held inner,
      (entries.lookup key = none ∧ held = [] ∨ entries.lookup key = some (.object held))
        ∧ writeBelow (way ++ [key]) held next v rest = .ok inner
        ∧ written = insert key (.object inner) entries := by
  have hwrite : ∀ held,
      (writeBelow (way ++ [key]) held next v rest >>= fun inner =>
        pure (insert key (.object inner) entries)) = .ok written →
      ∃ inner, writeBelow (way ++ [key]) held next v rest = .ok inner
        ∧ written = insert key (.object inner) entries := by
    intro held hbind
    obtain ⟨inner, hinner, hdone⟩ := exists_of_bind hbind
    exact ⟨inner, hinner, (Except.ok.inj hdone).symm⟩
  rw [writeBelow] at h
  split at h
  next hnone =>
    obtain ⟨inner, hinner, hwritten⟩ := hwrite [] h
    exact ⟨[], inner, Or.inl ⟨hnone, rfl⟩, hinner, hwritten⟩
  next held hsome =>
    obtain ⟨inner, hinner, hwritten⟩ := hwrite held h
    exact ⟨held, inner, Or.inr hsome, hinner, hwritten⟩
  next => exact absurd h (by simp)

/-- What stands below an object that is opened on the way, which may be a new one. -/
theorem at?_opened {held : List (String × Value)}
    (h : entries.lookup key = none ∧ held = [] ∨ entries.lookup key = some (.object held))
    {path : List String} (hpath : path ≠ []) :
    (object entries).at? (key :: path) = (object held).at? path := by
  rcases h with ⟨hnone, rfl⟩ | hsome
  · rw [at?_object, hnone, at?_object_nil hpath, Option.bind_none]
  · rw [at?_object, hsome, Option.bind_some]

/-! ## What a write leaves -/

/-- What has been written is found where it was written. -/
theorem at?_of_writeBelow (h : writeBelow way entries key v rest = .ok written) :
    (object written).at? (key :: rest) = some v := by
  induction rest generalizing way entries written key with
  | nil =>
    obtain rfl := Except.ok.inj h
    exact at?_insert_self key v entries []
  | cons next rest ih =>
    obtain ⟨held, inner, -, hinner, rfl⟩ := writeBelow_cons h
    rw [at?_insert_self]
    exact ih hinner

/-- Where neither path leads on from the other, nothing changes. -/
theorem at?_of_writeBelow_of_apart (h : writeBelow way entries key v rest = .ok written)
    {other : List String} (hapart : Apart (key :: rest) other) :
    (object written).at? other = (object entries).at? other := by
  induction rest generalizing way entries written key other with
  | nil =>
    obtain rfl := Except.ok.inj h
    cases other with
    | nil => exact absurd List.nil_prefix hapart.2
    | cons k other =>
      refine at?_insert_of_ne (fun hk => hapart.1 ?_) v entries other
      rw [hk]
      exact List.prefix_append [key] other
  | cons next rest ih =>
    obtain ⟨held, inner, hheld, hinner, rfl⟩ := writeBelow_cons h
    cases other with
    | nil => exact absurd List.nil_prefix hapart.2
    | cons k other =>
      by_cases hk : k = key
      · subst hk
        have hbelow : Apart (next :: rest) other := by
          simpa [Apart, List.cons_prefix_cons] using hapart
        have hne : other ≠ [] := fun hnil => hbelow.2 (hnil ▸ List.nil_prefix)
        rw [at?_insert_self, ih hinner hbelow, at?_opened hheld hne]
      · exact at?_insert_of_ne hk _ entries other

/-- On the way to the written path stands an object: a new one with the next key alone, or one that
    was there, with the next key behind its own if it is not among them. -/
theorem exists_of_writeBelow_above (h : writeBelow way entries key v rest = .ok written)
    {above below : List String} {next : String} (hsplit : key :: rest = above ++ next :: below) :
    ∃ new, (object written).at? above = some (.object new)
      ∧ ((object entries).at? above = none ∧ keys new = [next]
        ∨ ∃ old, (object entries).at? above = some (.object old)
          ∧ keys new = if next ∈ keys old then keys old else keys old ++ [next]) := by
  induction rest generalizing way entries written key above with
  | nil =>
    obtain rfl := Except.ok.inj h
    cases above with
    | nil =>
      obtain ⟨rfl, -⟩ := List.cons.inj hsplit
      exact ⟨_, rfl, Or.inr ⟨entries, rfl, keys_insert key v entries⟩⟩
    | cons k above => exact absurd (congrArg List.length hsplit) (by simp)
  | cons second rest ih =>
    obtain ⟨held, inner, hheld, hinner, rfl⟩ := writeBelow_cons h
    cases above with
    | nil =>
      obtain ⟨rfl, -⟩ := List.cons.inj hsplit
      exact ⟨_, rfl, Or.inr ⟨entries, rfl, keys_insert key _ entries⟩⟩
    | cons k above =>
      obtain ⟨rfl, hrest⟩ := List.cons.inj hsplit
      obtain ⟨new, hnew, hkeys⟩ := ih hinner hrest
      refine ⟨new, (at?_insert_self key _ entries above).trans hnew, ?_⟩
      rcases hheld with ⟨hnone, rfl⟩ | hsome
      · refine Or.inl ⟨by rw [at?_object, hnone, Option.bind_none], ?_⟩
        rcases hkeys with ⟨-, hkeys⟩ | ⟨old, hold, hkeys⟩
        · exact hkeys
        · -- the root is the only object in a new one
          obtain rfl : above = [] := Decidable.byContradiction fun hne =>
            absurd (hold.symm.trans (at?_object_nil hne)) (by simp)
          obtain rfl := object.inj (Option.some.inj hold)
          simpa [keys] using hkeys
      · rw [at?_object, hsome, Option.bind_some]
        exact hkeys

end

theorem ne_nil_of_lookup {t : Tree} {path : List String} {v : Value}
    (h : t.lookup path = some v) : path ≠ [] := by
  rintro rfl
  exact absurd h (by simp [lookup])

theorem lookup_of_ne_nil (t : Tree) {path : List String} (h : path ≠ []) :
    t.lookup path = t.toValue.at? path := by
  cases path with
  | nil => exact absurd rfl h
  | cons key path => rfl

section

variable {t t' : Tree} {path : List String} {v : Value}

theorem setPath_eq_ok (h : t.setPath path v = .ok t') :
    ∃ key rest, path = key :: rest ∧ writeBelow [] t.root key v rest = .ok t'.root := by
  cases path with
  | nil => exact absurd h (by simp [setPath])
  | cons key rest =>
    rw [setPath] at h
    cases hwrite : writeBelow [] t.root key v rest with
    | error cause => simp [hwrite] at h
    | ok root =>
      simp only [hwrite, Except.ok.injEq] at h
      exact ⟨key, rest, rfl, by rw [← h, hwrite]⟩

theorem at?_of_setPath (h : t.setPath path v = .ok t') : t'.toValue.at? path = some v := by
  obtain ⟨key, rest, rfl, hwrite⟩ := setPath_eq_ok h
  exact at?_of_writeBelow hwrite

theorem at?_of_setPath_of_apart (h : t.setPath path v = .ok t') {other : List String}
    (hapart : Apart path other) : t'.toValue.at? other = t.toValue.at? other := by
  obtain ⟨key, rest, rfl, hwrite⟩ := setPath_eq_ok h
  exact at?_of_writeBelow_of_apart hwrite hapart

theorem lookup_of_setPath_of_apart (h : t.setPath path v = .ok t') {other : List String}
    (hapart : Apart path other) : t'.lookup other = t.lookup other := by
  have hne : other ≠ [] := fun hnil => hapart.2 (hnil ▸ List.nil_prefix)
  rw [lookup_of_ne_nil t' hne, lookup_of_ne_nil t hne, at?_of_setPath_of_apart h hapart]

theorem exists_of_setPath_above (h : t.setPath path v = .ok t') {above below : List String}
    {next : String} (hpath : path = above ++ next :: below) :
    ∃ new, t'.toValue.at? above = some (.object new)
      ∧ (t.toValue.at? above = none ∧ keys new = [next]
        ∨ ∃ old, t.toValue.at? above = some (.object old)
          ∧ keys new = if next ∈ keys old then keys old else keys old ++ [next]) := by
  obtain ⟨key, rest, rfl, hwrite⟩ := setPath_eq_ok h
  exact exists_of_writeBelow_above hwrite hpath

end

/-- A written value is found at its path with all that it holds below, paths apart lead where they
    led, and every object on the way, the root among them, has its keys in their order with the next
    key of the path behind them if it is new. -/
theorem lookup_setPath {t t' : Tree} {path : List String} {v : Value}
    (h : t.setPath path v = .ok t') :
    (∀ tail, t'.lookup (path ++ tail) = v.at? tail)
      ∧ (∀ other, Apart path other → t'.lookup other = t.lookup other)
      ∧ ∀ above next below, path = above ++ next :: below →
        ∃ new, t'.toValue.at? above = some (.object new)
          ∧ (t.toValue.at? above = none ∧ keys new = [next]
            ∨ ∃ old, t.toValue.at? above = some (.object old)
              ∧ keys new = if next ∈ keys old then keys old else keys old ++ [next]) := by
  refine ⟨fun tail => ?_, fun other hapart => lookup_of_setPath_of_apart h hapart,
    fun above next below hpath => exists_of_setPath_above h hpath⟩
  obtain ⟨key, rest, rfl, -⟩ := setPath_eq_ok h
  rw [lookup_of_ne_nil t' (by simp), at?_append, at?_of_setPath h, Option.bind_some]

/-- A section beside a key, with a null where another section may come. -/
def serverTree : Tree :=
  ⟨[("server", .object [("host", .string "a"), ("proxy", .null)]), ("debug", .bool true)]⟩

/-- A write that makes a section: what is below the value, beside the path and on the way to it. -/
theorem lookup_setPath_server :
    ∃ t', serverTree.setPath ["server", "tls", "ports"] (.object [("low", .int 1)]) = .ok t'
      ∧ t'.lookup ["server", "tls", "ports", "low"] = some (.int 1)
      ∧ t'.lookup ["server", "proxy"] = some .null
      ∧ ∃ new, t'.toValue.at? ["server"] = some (.object new)
        ∧ keys new = ["host", "proxy", "tls"] := by
  obtain ⟨t', hwrite⟩ : ∃ t',
      serverTree.setPath ["server", "tls", "ports"] (.object [("low", .int 1)]) = .ok t' := ⟨_, rfl⟩
  obtain ⟨hbelow, hapart, habove⟩ := lookup_setPath hwrite
  refine ⟨t', hwrite, hbelow ["low"], (hapart ["server", "proxy"] (by decide)).trans rfl, ?_⟩
  obtain ⟨new, hnew, ⟨hnone, -⟩ | ⟨old, hold, hkeys⟩⟩ := habove ["server"] "tls" ["ports"] rfl
  · exact absurd hnone (Option.some_ne_none _)
  · obtain rfl := object.inj (Option.some.inj hold)
    exact ⟨new, hnew, hkeys⟩

/-! ## Writes that fail -/

/-- Short of the end of a path stands a value that is not an object. -/
structure Blocks (t : Tree) (path above : List String) (held : Value) : Prop where
  on_way : above <+: path
  short : above ≠ path
  lookup_eq : t.lookup above = some held
  not_object : held.entries? = none

/-- A write that fails names a value on its way that is not an object. -/
theorem exists_of_writeBelow_error {way : List String} {entries : List (String × Value)}
    {key : String} {v : Value} {rest : List String} {cause : Mistyped}
    (h : writeBelow way entries key v rest = .error cause) :
    ∃ above held, above ≠ [] ∧ above <+: key :: rest ∧ above ≠ key :: rest
      ∧ (object entries).at? above = some held ∧ held.entries? = none
      ∧ cause = .blockedPath (rest.getLastD key) (KeyPath.text (way ++ above)) held.kind := by
  induction rest generalizing way entries key with
  | nil => exact absurd h (by simp [writeBelow])
  | cons next rest ih =>
    have hinner : ∀ held,
        (writeBelow (way ++ [key]) held next v rest >>= fun inner =>
          pure (insert key (.object inner) entries)) = .error cause →
        writeBelow (way ++ [key]) held next v rest = .error cause := by
      intro held hbind
      cases hwrite : writeBelow (way ++ [key]) held next v rest with
      | error f => rwa [hwrite] at hbind
      | ok inner =>
        rw [hwrite] at hbind
        exact absurd hbind (by simp [bind, Except.bind, pure, Except.pure])
    rw [writeBelow] at h
    split at h
    next hnone =>
      obtain ⟨above, held, hne, -, -, hat, -⟩ := ih (hinner [] h)
      exact absurd (hat.symm.trans (at?_object_nil hne)) (by simp)
    next inner hsome =>
      obtain ⟨above, held, -, hway, hshort, hat, hplain, rfl⟩ := ih (hinner inner h)
      refine ⟨key :: above, held, List.cons_ne_nil _ _, List.cons_prefix_cons.mpr ⟨rfl, hway⟩,
        fun heq => hshort (List.cons.inj heq).2, ?_, hplain, ?_⟩
      · rw [at?_object, hsome, Option.bind_some, hat]
      · rw [List.getLastD_cons, List.append_assoc, List.singleton_append]
    next other hother hsome =>
      refine ⟨[key], other, List.cons_ne_nil _ _, List.prefix_append [key] _, by simp, ?_, ?_, ?_⟩
      · rw [at?_object, hsome]
        rfl
      · cases other with
        | object held => exact absurd rfl (hother held)
        | _ => rfl
      · rw [List.getLastD_cons]
        exact (Except.error.inj h).symm

/-- Nothing stands in the way of a write into an empty object. -/
theorem exists_writeBelow_nil (way : List String) (key : String) (v : Value) (rest : List String) :
    ∃ written, writeBelow way [] key v rest = .ok written := by
  cases h : writeBelow way [] key v rest with
  | ok written => exact ⟨written, rfl⟩
  | error cause =>
    obtain ⟨above, held, hne, -, -, hat, -⟩ := exists_of_writeBelow_error h
    exact absurd (hat.symm.trans (at?_object_nil hne)) (by simp)

/-- Of two values that block a path, neither stands before the other. -/
theorem Blocks.length_le {t : Tree} {path above other : List String} {held w : Value}
    (h : t.Blocks path above held) (hother : t.Blocks path other w) :
    above.length ≤ other.length := by
  refine Nat.le_of_not_lt fun hlt => ?_
  -- the longer way would lead on from the value at the end of the shorter one
  obtain ⟨tail, rfl⟩ := List.prefix_of_prefix_length_le hother.on_way h.on_way (Nat.le_of_lt hlt)
  obtain ⟨key, tail, rfl⟩ : ∃ key rest, tail = key :: rest :=
    List.exists_cons_of_ne_nil (by rintro rfl; simp at hlt)
  have hfound := h.lookup_eq
  rw [lookup_of_ne_nil t (by simp), at?_append,
    ← lookup_of_ne_nil t (ne_nil_of_lookup hother.lookup_eq), hother.lookup_eq, Option.bind_some,
    at?_cons_of_entries?_eq_none hother.not_object] at hfound
  exact absurd hfound (by simp)

/-- A path that is blocked is not written. -/
theorem Blocks.setPath_ne_ok {t : Tree} {path above : List String} {held : Value}
    (h : t.Blocks path above held) (v : Value) (t' : Tree) : t.setPath path v ≠ .ok t' := by
  intro hok
  obtain ⟨tail, rfl⟩ := h.on_way
  obtain ⟨next, below, rfl⟩ : ∃ next below, tail = next :: below :=
    List.exists_cons_of_ne_nil (by rintro rfl; exact h.short (List.append_nil _).symm)
  have hfound := h.lookup_eq
  rw [lookup_of_ne_nil t (ne_nil_of_lookup h.lookup_eq)] at hfound
  obtain ⟨new, -, ⟨hnone, -⟩ | ⟨old, hold, -⟩⟩ := exists_of_setPath_above hok rfl
  · exact absurd (hfound.symm.trans hnone) (by simp)
  · obtain rfl := Option.some.inj (hfound.symm.trans hold)
    exact absurd h.not_object (by simp [entries?])

/-- A write that fails has no path, or names the value that blocks it. -/
theorem exists_of_setPath_error {t : Tree} {path : List String} {v : Value} {f : Fault}
    (h : t.setPath path v = .error f) :
    path = [] ∧ f = .malformed .emptyPath
      ∨ ∃ above held, t.Blocks path above held
        ∧ f = .mistyped (.blockedPath (path.getLastD "") (KeyPath.text above) held.kind) := by
  cases path with
  | nil => exact Or.inl ⟨rfl, (Except.error.inj h).symm⟩
  | cons key rest =>
    rw [setPath] at h
    cases hwrite : writeBelow [] t.root key v rest with
    | ok root => simp [hwrite] at h
    | error cause =>
      simp only [hwrite, Except.error.injEq] at h
      obtain ⟨above, held, hne, hway, hshort, hat, hplain, rfl⟩ :=
        exists_of_writeBelow_error hwrite
      rw [← h, List.nil_append, List.getLastD_cons]
      exact Or.inr ⟨above, held,
        ⟨hway, hshort, (lookup_of_ne_nil t hne).trans hat, hplain⟩, rfl⟩

end Tree

/-! ## Writing in place -/

/-- The cursor writes what a write from its object down gives, and if that fails, it has put nothing
    into the tree. -/
theorem Cursor.write_eq (c : Cursor) (way : List String) {keys : List String} {last : String}
    (v : Value) {key : String} {rest : List String} (hpath : keys ++ [last] = key :: rest) :
    c.write way last v keys
      = match Tree.writeBelow way c.entries key v rest with
        | .ok written => .done ({ c with entries := written } : Cursor).tree
        | .error cause => .stopped c.tree (.mistyped cause) := by
  induction keys generalizing c way key rest with
  | nil =>
    obtain ⟨rfl, rfl⟩ := List.cons.inj hpath
    rfl
  | cons k keys ih =>
    obtain rfl : k = key := (List.cons.inj hpath).1
    have htail : keys ++ [last] = rest := (List.cons.inj hpath).2
    obtain ⟨next, rest, rfl⟩ : ∃ next below, rest = next :: below :=
      List.exists_cons_of_ne_nil (by simp [← htail])
    rw [write, Tree.writeBelow, orInsert]
    cases hlookup : c.entries.lookup k with
    | none =>
      -- what is put in from here on is written through to the end
      obtain ⟨written, hwritten⟩ := Tree.exists_writeBelow_nil (way ++ [k]) next v rest
      dsimp only
      rw [ih _ _ htail, hwritten]
      simp [tree, insert_insert, bind, Except.bind, pure, Except.pure]
    | some held =>
      cases held with
      | object inner =>
        dsimp only
        rw [ih _ _ htail]
        cases Tree.writeBelow (way ++ [k]) inner next v rest with
        | ok written => rfl
        | error cause => simp [tree, insert_of_lookup hlookup, bind, Except.bind]
      | _ =>
        have hlast : rest.getLastD next = last := by
          rw [← List.getLastD_cons (a := ""), ← htail, List.getLastD_concat]
        dsimp only
        rw [hlast]

namespace Tree

/-- A write in place leaves what the write gives, or else the tree as it was. -/
theorem setPathInPlace_eq (t : Tree) (path : List String) (v : Value) :
    t.setPathInPlace path v
      = match t.setPath path v with
        | .ok t' => .done t'
        | .error f => .stopped t f := by
  cases path with
  | nil => rfl
  | cons key rest =>
    have hpath := List.dropLast_concat_getLast (List.cons_ne_nil key rest)
    rw [setPathInPlace, List.getLast?_eq_some_getLast (List.cons_ne_nil key rest), setPath]
    dsimp only
    rw [Cursor.write_eq _ [] v hpath]
    cases writeBelow [] t.root key v rest <;> rfl

/-- A write in place stops exactly where the path is empty or a value on the way to its end, null
    among them, is not an object. Then the tree is what it was, and the fault names the first such
    value. -/
theorem setPathInPlace_stopped_iff (t : Tree) (path : List String) (v : Value) :
    ((∃ left f, t.setPathInPlace path v = .stopped left f) ↔
        path = [] ∨ ∃ above held, t.Blocks path above held)
      ∧ ∀ left f, t.setPathInPlace path v = .stopped left f →
        left = t
          ∧ (path = [] ∧ f = .malformed .emptyPath
            ∨ ∃ above held, t.Blocks path above held
              ∧ (∀ other w, t.Blocks path other w → above.length ≤ other.length)
              ∧ f = .mistyped
                (.blockedPath (path.getLastD "") (KeyPath.text above) held.kind)) := by
  have hstopped : ∀ left f, t.setPathInPlace path v = .stopped left f →
      left = t ∧ t.setPath path v = .error f := by
    intro left f h
    rw [setPathInPlace_eq] at h
    cases hwrite : t.setPath path v with
    | ok t' => simp [hwrite] at h
    | error g =>
      simp only [hwrite, Outcome.stopped.injEq] at h
      exact ⟨h.1.symm, congrArg Except.error h.2⟩
  refine ⟨⟨fun ⟨left, f, h⟩ => ?_, fun h => ?_⟩, fun left f h => ?_⟩
  · rcases exists_of_setPath_error (hstopped left f h).2 with ⟨hnil, -⟩ | ⟨above, held, hblocks, -⟩
    · exact Or.inl hnil
    · exact Or.inr ⟨above, held, hblocks⟩
  · cases hwrite : t.setPath path v with
    | error f => exact ⟨t, f, by rw [setPathInPlace_eq, hwrite]⟩
    | ok t' =>
      rcases h with rfl | ⟨above, held, hblocks⟩
      · exact absurd hwrite (by simp [setPath])
      · exact absurd hwrite (hblocks.setPath_ne_ok v t')
  · obtain ⟨rfl, hwrite⟩ := hstopped left f h
    refine ⟨rfl, (exists_of_setPath_error hwrite).imp_right ?_⟩
    rintro ⟨above, held, hblocks, hf⟩
    exact ⟨above, held, hblocks, fun other w hother => hblocks.length_le hother, hf⟩

example : (⟨[("a", .null)]⟩ : Tree).setPathInPlace ["a", "b", "c"] (.int 1)
    = .stopped ⟨[("a", .null)]⟩ (.mistyped (.blockedPath "c" "a" .null)) :=
  rfl

end Tree

end ConfigLang
