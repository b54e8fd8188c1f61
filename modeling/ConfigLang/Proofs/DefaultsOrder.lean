import ConfigLang.Proofs.DefaultsFilling
import ConfigLang.Proofs.KeyOrder

set_option autoImplicit false

/-! # Filling in again, and in another order

A default whose path has a value already, or null where it is null itself, changes nothing. Once all
defaults of a table are filled in, that is so for each of them, so the table can be filled in again
(`applyDefaults_idempotent`). If no path of a table leads on from another one, no default has a say in
whether another is needed or can be written, and the order of the table can be seen in the order of
keys only (`applyDefaults_perm`). -/

namespace ConfigLang

open Entries KeyPath

namespace Tree

open Value

/-! ## Filling in again -/

/-- Writing at a path what it leads to changes nothing. -/
theorem writeBelow_of_at? {way : List String} {entries : List (String × Value)} {key : String}
    {rest : List String} {v : Value} (h : (object entries).at? (key :: rest) = some v) :
    writeBelow way entries key v rest = .ok entries := by
  induction rest generalizing way entries key with
  | nil =>
    rw [at?_object] at h
    obtain ⟨held, hlookup, hheld⟩ := Option.bind_eq_some_iff.mp h
    obtain rfl := Option.some.inj hheld
    rw [writeBelow, insert_of_lookup hlookup]
  | cons next rest ih =>
    rw [at?_object] at h
    obtain ⟨held, hlookup, hheld⟩ := Option.bind_eq_some_iff.mp h
    cases held with
    | object inner =>
      rw [writeBelow, hlookup]
      dsimp only
      rw [ih hheld]
      exact congrArg Except.ok (insert_of_lookup hlookup)
    | _ => exact absurd hheld (by simp [at?, entries?])

theorem setPath_of_lookup {t : Tree} {path : List String} {v : Value}
    (h : t.lookup path = some v) : t.setPath path v = .ok t := by
  cases path with
  | nil => exact absurd rfl (ne_nil_of_lookup h)
  | cons key rest => rw [setPath, writeBelow_of_at? h]

/-- A default changes nothing where there is a value, or where both are null. -/
theorem fill_of_lookup {t : Tree} {path : List String} {v w : Value} (hw : t.lookup path = some w)
    (hsolid : v.isNull = false → w.isNull = false) : t.fill path v = .ok t := by
  rw [fill]
  split
  next hlacks =>
    have hnull : w.isNull = true := (lacks_iff t path).mp hlacks w hw
    have hdefault : v.isNull = true := by
      rw [← Bool.not_eq_false]
      exact fun hv => absurd (hsolid hv) (by rw [hnull]; decide)
    obtain rfl := eq_null_of_isNull hnull
    obtain rfl := eq_null_of_isNull hdefault
    exact setPath_of_lookup hw
  next => rfl

/-- Defaults that change nothing one by one change nothing all together. -/
theorem fillAll_of_get? {t : Tree} {entries : List (String × Value)}
    (h : ∀ path v, (path, v) ∈ entries →
      ∃ w, t.get? path.toList = some w ∧ (v.isNull = false → w.isNull = false)) :
    t.fillAll entries = .done t := by
  induction entries with
  | nil => rfl
  | cons entry rest ih =>
    obtain ⟨path, v⟩ := entry
    obtain ⟨w, hw, hsolid⟩ := h path v List.mem_cons_self
    rw [fillAll, fill_of_lookup hw hsolid]
    exact ih fun path v hmem => h path v (List.mem_cons_of_mem _ hmem)

/-- Filling in a table a second time succeeds and changes nothing, not even the order of keys. -/
theorem applyDefaults_idempotent {t final : Tree} {d : Defaults}
    (h : t.applyDefaults d = .done final) : final.applyDefaults d = .done final :=
  fillAll_of_get? fun _ _ hmem => exists_of_fillAll h hmem

/-- Defaults that are null, or have a null in them that a later one replaces. -/
def nullDefaults : Defaults :=
  .ofPairs [("server.proxy", .null), ("server.tls", .object [("level", .null)]),
    ("server.tls.level", .int 2), ("debug", .null)]

theorem applyDefaults_idempotent_null :
    ∃ final, portTree.applyDefaults nullDefaults = .done final
      ∧ final.get? "server.tls.level".toList = some (.int 2)
      ∧ final.get? "debug".toList = some .null
      ∧ final.applyDefaults nullDefaults = .done final := by
  obtain ⟨final, h, htls, hdebug⟩ : ∃ final, portTree.applyDefaults nullDefaults = .done final
      ∧ final.get? "server.tls.level".toList = some (.int 2)
      ∧ final.get? "debug".toList = some .null := ⟨_, rfl, rfl, rfl⟩
  exact ⟨final, h, htls, hdebug, applyDefaults_idempotent h⟩

/-! ## Defaults at paths apart -/

section

variable {t t' filled : Tree} {path other : List String} {v w : Value}

/-- A write at a path apart neither blocks a path nor frees it. -/
theorem blocks_of_setPath_of_apart (h : t.setPath other w = .ok t') (hapart : Apart other path)
    {above : List String} {held : Value} :
    t'.Blocks path above held ↔ t.Blocks path above held := by
  have hsame : above <+: path → ¬ (∃ next below, other = above ++ next :: below) →
      t'.lookup above = t.lookup above := by
    intro hway hnot
    rcases prefix_or_above_or_apart other above with hleads | habove | hapart'
    · exact absurd (hleads.trans hway) hapart.1
    · exact absurd habove hnot
    · exact lookup_of_setPath_of_apart h hapart'
  refine ⟨fun hblocks => ?_, fun hblocks => ?_⟩
  · refine { hblocks with lookup_eq := ?_ }
    rw [← hsame hblocks.on_way, hblocks.lookup_eq]
    -- on the way to the written path stand objects
    rintro ⟨next, below, rfl⟩
    obtain ⟨new, hnew, -⟩ := exists_of_setPath_above h rfl
    have hfound := hblocks.lookup_eq
    rw [lookup_of_ne_nil t' (ne_nil_of_lookup hfound), hnew] at hfound
    obtain rfl := Option.some.inj hfound
    exact absurd hblocks.not_object (by simp [entries?])
  · refine { hblocks with lookup_eq := ?_ }
    rw [hsame hblocks.on_way, hblocks.lookup_eq]
    -- what blocks both paths would have stopped the write
    rintro ⟨next, below, rfl⟩
    exact Blocks.setPath_ne_ok ⟨List.prefix_append _ _, by simp, hblocks.lookup_eq,
      hblocks.not_object⟩ w t' h

theorem exists_setPath_iff :
    (∃ t', t.setPath path v = .ok t') ↔ path ≠ [] ∧ ∀ above held, ¬ t.Blocks path above held := by
  constructor
  · rintro ⟨t', h⟩
    refine ⟨?_, fun above held hblocks => hblocks.setPath_ne_ok v t' h⟩
    rintro rfl
    exact absurd h (by simp [setPath])
  · rintro ⟨hne, hfree⟩
    cases h : t.setPath path v with
    | ok t' => exact ⟨t', rfl⟩
    | error f =>
      rcases exists_of_setPath_error h with ⟨hnil, -⟩ | ⟨above, held, hblocks, -⟩
      · exact absurd hnil hne
      · exact absurd hblocks (hfree above held)

/-- A default is filled in if it is not needed or nothing blocks its path. -/
theorem exists_fill_iff :
    (∃ filled, t.fill path v = .ok filled) ↔
      (t.lacks path = true → path ≠ [] ∧ ∀ above held, ¬ t.Blocks path above held) := by
  rw [← exists_setPath_iff (v := v)]
  rw [fill]
  split
  next hlacks => exact ⟨fun h _ => h, fun h => h hlacks⟩
  next hthere => exact ⟨fun _ hlacks => absurd hlacks hthere, fun _ => ⟨t, rfl⟩⟩

theorem lacks_of_fill_of_apart (h : t.fill other w = .ok t') (hapart : Apart other path) :
    t'.lacks path = t.lacks path := by
  rw [lacks, lacks, lookup_of_fill_of_apart h hapart]

/-- Whether a default can be filled in does not depend on one at a path apart. -/
theorem exists_fill_iff_of_apart (h : t.fill other w = .ok t') (hapart : Apart other path) :
    (∃ filled, t'.fill path v = .ok filled) ↔ ∃ filled, t.fill path v = .ok filled := by
  rw [exists_fill_iff, exists_fill_iff, lacks_of_fill_of_apart h hapart]
  rcases fill_eq_ok h with ⟨-, hwrite⟩ | ⟨-, rfl⟩
  · simp only [blocks_of_setPath_of_apart hwrite hapart]
  · rfl

end

/-- The path that a default of a table is for. -/
def pathOf (entry : String × Value) : List String :=
  ofText entry.1.toList

theorem pathOf_ne_nil (entry : String × Value) : pathOf entry ≠ [] := by
  simp [pathOf, ofText, Text.splitOn_ne_nil]

theorem fillAll_cons_of_fill {t filled : Tree} {entry : String × Value}
    (h : t.fill (pathOf entry) entry.2 = .ok filled) (rest : List (String × Value)) :
    t.fillAll (entry :: rest) = filled.fillAll rest := by
  rw [pathOf] at h
  rw [fillAll, h]

/-- Defaults at paths apart can be filled in together if each of them can be alone. -/
theorem exists_fillAll_iff {t : Tree} {entries : List (String × Value)}
    (hapart : entries.Pairwise fun p q => Apart (pathOf p) (pathOf q)) :
    (∃ final, t.fillAll entries = .done final) ↔
      ∀ entry ∈ entries, ∃ filled, t.fill (pathOf entry) entry.2 = .ok filled := by
  induction entries generalizing t with
  | nil => simp [fillAll]
  | cons entry rest ih =>
    obtain ⟨hfirst, hrest⟩ := List.pairwise_cons.mp hapart
    rw [List.forall_mem_cons]
    cases hfill : t.fill (pathOf entry) entry.2 with
    | error f =>
      constructor
      · rintro ⟨final, h⟩
        obtain ⟨filled, h, -⟩ := fillAll_cons_eq_done h
        exact absurd (hfill.symm.trans h) (by simp)
      · rintro ⟨⟨filled, h⟩, -⟩
        exact absurd h (by simp)
    | ok filled =>
      rw [fillAll_cons_of_fill hfill, ih hrest]
      refine ⟨fun h => ⟨⟨filled, rfl⟩, fun other hother => ?_⟩, fun h other hother => ?_⟩
      · exact (exists_fill_iff_of_apart hfill (hfirst other hother)).mp (h other hother)
      · exact (exists_fill_iff_of_apart hfill (hfirst other hother)).mpr (h.2 other hother)

/-! ## What is seen behind defaults -/

end Tree

namespace Value.View

/-- Whether nothing, or null, is seen at a path. -/
def lacks (before : View) (path : List String) : Bool :=
  match before path with
  | none => true
  | some (.plain v) => v.isNull
  | some (.object _) => false

/-- What is seen behind a default. -/
def fill (before : View) (path : List String) (v : Value) : View :=
  if before.lacks path then before.write path v else before

variable {path other : List String}

theorem lacks_write_of_apart (h : Apart path other) (v : Value) (before : View) :
    (before.write path v).lacks other = before.lacks other := by
  rw [lacks, lacks, write_of_apart h]

/-- Defaults at paths apart may change places. -/
theorem fill_comm (h : Apart path other) (v w : Value) (before : View) :
    (before.fill path v).fill other w = (before.fill other w).fill path v := by
  unfold fill
  cases hpath : before.lacks path <;> cases hother : before.lacks other
  · simp [hpath, hother]
  · simp [hpath, hother, lacks_write_of_apart h.symm]
  · simp [hpath, hother, lacks_write_of_apart h]
  · simp [hpath, hother, lacks_write_of_apart h.symm, lacks_write_of_apart h, write_comm h.symm]

end Value.View

namespace Tree

open Value

variable {t final : Tree} {entries : List (String × Value)}

theorem lacks_view (t : Tree) {path : List String} (h : path ≠ []) :
    t.toValue.view.lacks path = t.lacks path := by
  rw [lacks, View.lacks, view, lookup_of_ne_nil t h]
  cases t.toValue.at? path with
  | none => rfl
  | some v => cases v <;> rfl

theorem view_fill {filled : Tree} {path : List String} {v : Value} (hne : path ≠ [])
    (h : t.fill path v = .ok filled) : filled.toValue.view = t.toValue.view.fill path v := by
  rw [View.fill, lacks_view t hne]
  rcases fill_eq_ok h with ⟨hlacks, hwrite⟩ | ⟨hthere, rfl⟩
  · rw [if_pos hlacks, view_setPath hwrite]
  · rw [if_neg (by rw [hthere]; decide)]

/-- What is seen behind all defaults can be told from what was seen before them. -/
theorem view_fillAll (h : t.fillAll entries = .done final) :
    final.toValue.view
      = entries.foldl (fun seen entry => seen.fill (pathOf entry) entry.2) t.toValue.view := by
  induction entries generalizing t with
  | nil => rw [Outcome.done.inj h, List.foldl_nil]
  | cons entry rest ih =>
    obtain ⟨filled, hfill, hrest⟩ := fillAll_cons_eq_done h
    rw [List.foldl_cons, ih hrest, view_fill (pathOf_ne_nil entry) hfill]

theorem lookup_of_reordered {t t' : Tree} (h : Reordered t.toValue t'.toValue)
    (path : List String) : Option.Rel Reordered (t.lookup path) (t'.lookup path) := by
  cases path with
  | nil => exact .none
  | cons key path => exact h.at? (key :: path)

/-- Tables with the same defaults in another order, none of whose paths leads on from another one, can
    be filled in or not alike, and then every path leads to the same value but for the order of keys. -/
theorem applyDefaults_perm (t : Tree) {d d' : Defaults} (hperm : d.entries.Perm d'.entries)
    (hleads : ∀ path ∈ keys d.entries, ∀ other ∈ keys d.entries, path ≠ other →
      ¬ ofText path.toList <+: ofText other.toList) :
    ((∃ final, t.applyDefaults d = .done final) ↔ ∃ final, t.applyDefaults d' = .done final)
      ∧ ∀ final final', t.applyDefaults d = .done final → t.applyDefaults d' = .done final' →
        ∀ path, Option.Rel Reordered (final.lookup path) (final'.lookup path) := by
  have hall : ∀ p ∈ d.entries, ∀ q ∈ d.entries, p ≠ q → Apart (pathOf p) (pathOf q) := by
    intro p hp q hq hne
    have hkey : p.1 ≠ q.1 := fun heq => hne (List.inj_on_of_nodup_map d.nodup_paths hp hq heq)
    have hkeys : ∀ r ∈ d.entries, r.1 ∈ keys d.entries := fun r hr => List.mem_map_of_mem hr
    exact ⟨hleads p.1 (hkeys p hp) q.1 (hkeys q hq) hkey,
      hleads q.1 (hkeys q hq) p.1 (hkeys p hp) hkey.symm⟩
  have hapart := (List.Nodup.of_map _ d.nodup_paths).pairwise_of_forall_ne hall
  have hapart' : d'.entries.Pairwise fun p q => Apart (pathOf p) (pathOf q) :=
    hperm.pairwise hapart fun h => h.symm
  refine ⟨?_, fun final final' h h' => lookup_of_reordered (reordered_iff_view_eq.mpr ?_)⟩
  · rw [applyDefaults, applyDefaults, exists_fillAll_iff hapart, exists_fillAll_iff hapart']
    exact forall_congr' fun entry => by rw [hperm.mem_iff]
  · rw [view_fillAll h, view_fillAll h']
    refine hperm.foldl_eq' (fun p hp q hq before => ?_) _
    by_cases heq : p = q
    · rw [heq]
    · exact View.fill_comm (hall p hp q hq heq) _ _ before

/-- Two defaults that have an object in common, and one beside it. -/
def tlsDefaults : Defaults :=
  .ofPairs [("server.tls.cert", .string "c"), ("server.proxy", .string "p"),
    ("server.tls.level", .int 2)]

/-- The same defaults, the last one first. -/
def tlsDefaultsReversed : Defaults where
  entries := tlsDefaults.entries.reverse
  nodup_paths := by
    rw [keys, List.map_reverse, List.nodup_reverse]
    exact tlsDefaults.nodup_paths

/-- The object that is made has its keys the other way round. -/
theorem applyDefaults_perm_reversed :
    ∃ final final', portTree.applyDefaults tlsDefaults = .done final
      ∧ portTree.applyDefaults tlsDefaultsReversed = .done final'
      ∧ final.lookup ["server", "tls"] = some (.object [("cert", .string "c"), ("level", .int 2)])
      ∧ final'.lookup ["server", "tls"] = some (.object [("level", .int 2), ("cert", .string "c")])
      ∧ Option.Rel Reordered (final.lookup ["server", "tls"]) (final'.lookup ["server", "tls"]) := by
  have hperm : tlsDefaults.entries.Perm tlsDefaultsReversed.entries :=
    (List.reverse_perm tlsDefaults.entries).symm
  obtain ⟨-, hsame⟩ := applyDefaults_perm portTree hperm (by decide)
  obtain ⟨final, h, htls⟩ : ∃ final, portTree.applyDefaults tlsDefaults = .done final
      ∧ final.lookup ["server", "tls"]
        = some (.object [("cert", .string "c"), ("level", .int 2)]) := ⟨_, rfl, rfl⟩
  obtain ⟨final', h', htls'⟩ : ∃ final', portTree.applyDefaults tlsDefaultsReversed = .done final'
      ∧ final'.lookup ["server", "tls"]
        = some (.object [("level", .int 2), ("cert", .string "c")]) := ⟨_, rfl, rfl⟩
  exact ⟨final, final', h, h', htls, htls', hsame final final' h h' ["server", "tls"]⟩

end Tree

end ConfigLang
