import ConfigLang.Proofs.TreeWriting
import ConfigLang.Tree.Defaults

set_option autoImplicit false

/-! # Filling in defaults

Defaults are written one after another where a tree has nothing, or null, so one of them may make
the object in which the next is looked up. Whatever the tree says but null stays as it is, even if a
default in the middle cannot be written, and a default that no other one stands in the way of is
what its path leads to (`applyDefaults_overlay`). -/

namespace ConfigLang

open Entries KeyPath

/-! ## Values that are kept -/

namespace Value

/-- Every path of one value is a path of the other, where it leads to the same value, save that null
    may be replaced and that an object may have more in it. -/
def Extends (old new : Value) : Prop :=
  ∀ path w, old.at? path = some w → ∃ w', new.at? path = some w'
    ∧ (w.isNull = false → w'.isNull = false ∧ (w.entries? = none → w' = w))

namespace Extends

theorem refl (v : Value) : v.Extends v :=
  fun _ w hw => ⟨w, hw, fun hsolid => ⟨hsolid, fun _ => rfl⟩⟩

theorem trans {old mid new : Value} (h : old.Extends mid) (h' : mid.Extends new) :
    old.Extends new := by
  intro path w hw
  obtain ⟨w₁, hw₁, hkept₁⟩ := h path w hw
  obtain ⟨w₂, hw₂, hkept₂⟩ := h' path w₁ hw₁
  refine ⟨w₂, hw₂, fun hsolid => ?_⟩
  obtain ⟨hsolid₁, hsame₁⟩ := hkept₁ hsolid
  obtain ⟨hsolid₂, hsame₂⟩ := hkept₂ hsolid₁
  refine ⟨hsolid₂, fun hplain => ?_⟩
  obtain rfl := hsame₁ hplain
  exact hsame₂ hplain

end Extends

/-- Every object of one value is an object of the other, with its keys in front of new ones. -/
def KeepsKeys (old new : Value) : Prop :=
  ∀ path entries, old.at? path = some (.object entries) →
    ∃ more, new.at? path = some (.object more) ∧ keys entries <+: keys more

namespace KeepsKeys

theorem refl (v : Value) : v.KeepsKeys v :=
  fun _ entries h => ⟨entries, h, List.prefix_rfl⟩

theorem trans {old mid new : Value} (h : old.KeepsKeys mid) (h' : mid.KeepsKeys new) :
    old.KeepsKeys new := by
  intro path entries hentries
  obtain ⟨some₁, hsome₁, hkeys₁⟩ := h path entries hentries
  obtain ⟨some₂, hsome₂, hkeys₂⟩ := h' path some₁ hsome₁
  exact ⟨some₂, hsome₂, hkeys₁.trans hkeys₂⟩

end KeepsKeys

theorem eq_null_of_isNull {v : Value} (h : v.isNull = true) : v = .null := by
  cases v with
  | null => rfl
  | _ => exact absurd h Bool.false_ne_true

end Value

namespace Tree

open Value

/-! ## One default -/

section

variable {t filled : Tree} {path : List String} {v : Value}

theorem lacks_iff (t : Tree) (path : List String) :
    t.lacks path = true ↔ ∀ w, t.lookup path = some w → w.isNull = true := by
  rw [lacks]
  cases t.lookup path with
  | none => simp
  | some held => simp

/-- What a path leads to behind a write where nothing was, or null: another value if it is null, a
    longer object if it is an object on the way, and itself else. -/
theorem at?_of_setPath_of_lacks (hlacks : t.lacks path = true)
    (h : t.setPath path v = .ok filled) {other : List String} {w : Value}
    (hw : t.toValue.at? other = some w) :
    (w = .null ∧ ∃ w', filled.toValue.at? other = some w')
      ∨ (∃ old new, w = .object old ∧ filled.toValue.at? other = some (.object new)
        ∧ keys old <+: keys new)
      ∨ filled.toValue.at? other = some w := by
  rcases prefix_or_above_or_apart path other with ⟨tail, rfl⟩ | ⟨next, below, hpath⟩ | hapart
  · obtain ⟨key, rest, rfl, -⟩ := setPath_eq_ok h
    rw [at?_append, Option.bind_eq_some_iff] at hw
    obtain ⟨held, hheld, hbelow⟩ := hw
    obtain rfl := eq_null_of_isNull ((lacks_iff t _).mp hlacks held hheld)
    cases tail with
    | nil =>
      obtain rfl := Option.some.inj hbelow
      exact Or.inl ⟨rfl, v, by rw [List.append_nil]; exact at?_of_setPath h⟩
    | cons k tail => exact absurd hbelow (by simp [at?, entries?])
  · obtain ⟨new, hnew, ⟨hnone, -⟩ | ⟨old, hold, hkeys⟩⟩ := exists_of_setPath_above h hpath
    · exact absurd (hnone.symm.trans hw) (by simp)
    · refine Or.inr (Or.inl ⟨old, new, Option.some.inj (hw.symm.trans hold), hnew, ?_⟩)
      rw [hkeys]
      split
      · exact List.prefix_rfl
      · exact List.prefix_append _ _
  · exact Or.inr (Or.inr ((at?_of_setPath_of_apart h hapart).trans hw))

/-- A default is written where the tree lacks its path, and left out where it does not. -/
theorem fill_eq_ok (h : t.fill path v = .ok filled) :
    t.lacks path = true ∧ t.setPath path v = .ok filled ∨ t.lacks path = false ∧ filled = t := by
  rw [fill] at h
  split at h
  next hlacks => exact Or.inl ⟨hlacks, h⟩
  next hthere => exact Or.inr ⟨Bool.eq_false_iff.mpr hthere, (Except.ok.inj h).symm⟩

/-- Filling in one default keeps all else. -/
theorem fill_keeps (h : t.fill path v = .ok filled) :
    t.toValue.Extends filled.toValue ∧ t.toValue.KeepsKeys filled.toValue := by
  rcases fill_eq_ok h with ⟨hlacks, hwrite⟩ | ⟨-, rfl⟩
  · refine ⟨fun other w hw => ?_, fun other entries hw => ?_⟩
    · obtain ⟨rfl, w', hw'⟩ | ⟨old, new, rfl, hnew, -⟩ | hsame :=
        at?_of_setPath_of_lacks hlacks hwrite hw
      · exact ⟨w', hw', fun hsolid => absurd hsolid (by decide)⟩
      · exact ⟨.object new, hnew, fun _ => ⟨rfl, fun hplain => absurd hplain (by simp [entries?])⟩⟩
      · exact ⟨w, hsame, fun hsolid => ⟨hsolid, fun _ => rfl⟩⟩
    · obtain ⟨hnull, -⟩ | ⟨old, new, hold, hnew, hkeys⟩ | hsame :=
        at?_of_setPath_of_lacks hlacks hwrite hw
      · exact absurd hnull (by simp)
      · obtain rfl := object.inj hold
        exact ⟨new, hnew, hkeys⟩
      · exact ⟨entries, hsame, List.prefix_rfl⟩
  · exact ⟨Extends.refl _, KeepsKeys.refl _⟩

/-- Filling in a default leaves its path with a value. -/
theorem exists_of_fill (h : t.fill path v = .ok filled) :
    ∃ w, filled.lookup path = some w ∧ (v.isNull = false → w.isNull = false)
      ∧ (t.lacks path = true → w = v) := by
  rcases fill_eq_ok h with ⟨-, hwrite⟩ | ⟨hthere, rfl⟩
  · obtain ⟨key, rest, rfl, -⟩ := setPath_eq_ok hwrite
    exact ⟨v, at?_of_setPath hwrite, id, fun _ => rfl⟩
  · have hsolid := hthere
    rw [lacks] at hsolid
    split at hsolid
    next => exact absurd hsolid (by decide)
    next w hw => exact ⟨w, hw, fun _ => hsolid, fun hlacks => absurd hlacks (by simp [hthere])⟩

theorem lookup_of_fill_of_apart (h : t.fill path v = .ok filled) {other : List String}
    (hapart : Apart path other) : filled.lookup other = t.lookup other := by
  rcases fill_eq_ok h with ⟨-, hwrite⟩ | ⟨-, rfl⟩
  · exact lookup_of_setPath_of_apart hwrite hapart
  · rfl

end

/-! ## All defaults -/

/-- Filling in defaults keeps what is there, however far it gets. -/
theorem fillAll_keeps (t : Tree) (entries : List (String × Value)) :
    t.toValue.Extends (t.fillAll entries).state.toValue
      ∧ t.toValue.KeepsKeys (t.fillAll entries).state.toValue := by
  induction entries generalizing t with
  | nil => exact ⟨Extends.refl _, KeepsKeys.refl _⟩
  | cons entry rest ih =>
    obtain ⟨path, v⟩ := entry
    rw [fillAll]
    cases hfill : t.fill (ofText path.toList) v with
    | error f => exact ⟨Extends.refl _, KeepsKeys.refl _⟩
    | ok filled =>
      obtain ⟨hextends, hkeys⟩ := fill_keeps hfill
      exact ⟨hextends.trans (ih filled).1, hkeys.trans (ih filled).2⟩

theorem fillAll_cons_eq_done {t final : Tree} {path : String} {v : Value}
    {rest : List (String × Value)} (h : t.fillAll ((path, v) :: rest) = .done final) :
    ∃ filled, t.fill (ofText path.toList) v = .ok filled ∧ filled.fillAll rest = .done final := by
  rw [fillAll] at h
  cases hfill : t.fill (ofText path.toList) v with
  | error f => simp [hfill] at h
  | ok filled => exact ⟨filled, rfl, by simpa [hfill] using h⟩

theorem fillAll_append_eq_done {t final : Tree} {front back : List (String × Value)}
    (h : t.fillAll (front ++ back) = .done final) :
    ∃ mid, t.fillAll front = .done mid ∧ mid.fillAll back = .done final := by
  induction front generalizing t with
  | nil => exact ⟨t, rfl, h⟩
  | cons entry rest ih =>
    obtain ⟨path, v⟩ := entry
    obtain ⟨filled, hfill, hrest⟩ := fillAll_cons_eq_done h
    obtain ⟨mid, hmid, hback⟩ := ih hrest
    exact ⟨mid, by rw [fillAll, hfill]; exact hmid, hback⟩

/-- What a tree holds at a path, a tree that extends it holds there too. -/
theorem lookup_of_extends {t t' : Tree} (h : t.toValue.Extends t'.toValue) {path : List String}
    {w : Value} (hw : t.lookup path = some w) :
    ∃ w', t'.lookup path = some w'
      ∧ (w.isNull = false → w'.isNull = false ∧ (w.entries? = none → w' = w)) := by
  cases path with
  | nil => exact absurd hw (by simp [lookup])
  | cons key path => exact h (key :: path) w hw

/-- Each default that is filled in leaves its path with a value. -/
theorem exists_of_fillAll {t final : Tree} {entries : List (String × Value)}
    (h : t.fillAll entries = .done final) {path : String} {v : Value} (hmem : (path, v) ∈ entries) :
    ∃ w, final.get? path.toList = some w ∧ (v.isNull = false → w.isNull = false) := by
  obtain ⟨front, back, rfl⟩ := List.append_of_mem hmem
  obtain ⟨mid, -, hmid⟩ := fillAll_append_eq_done h
  obtain ⟨filled, hfill, hback⟩ := fillAll_cons_eq_done hmid
  obtain ⟨w, hw, hsolid, -⟩ := exists_of_fill hfill
  have hlater := (fillAll_keeps filled back).1
  rw [hback] at hlater
  obtain ⟨w', hw', hkept⟩ := lookup_of_extends hlater hw
  exact ⟨w', hw', fun hv => (hkept (hsolid hv)).1⟩

/-- Defaults for paths apart from a path change nothing there. -/
theorem lookup_of_fillAll_of_apart {t final : Tree} {entries : List (String × Value)}
    (h : t.fillAll entries = .done final) {path : List String}
    (hapart : ∀ key ∈ keys entries, Apart (ofText key.toList) path) :
    final.lookup path = t.lookup path := by
  induction entries generalizing t with
  | nil => rw [Outcome.done.inj h]
  | cons entry rest ih =>
    obtain ⟨key, v⟩ := entry
    obtain ⟨filled, hfill, hrest⟩ := fillAll_cons_eq_done h
    rw [ih hrest fun k hk => hapart k (List.mem_cons_of_mem _ hk),
      lookup_of_fill_of_apart hfill (hapart key List.mem_cons_self)]

/-- A default that others are apart from is what its path leads to, if nothing was there. -/
theorem get?_of_fillAll {t final : Tree} {front back : List (String × Value)} {path : String}
    {v : Value} (h : t.fillAll (front ++ (path, v) :: back) = .done final)
    (hlacks : t.lacks (ofText path.toList) = true)
    (hapart : ∀ key ∈ keys front ++ keys back, Apart (ofText key.toList) (ofText path.toList)) :
    final.get? path.toList = some v := by
  obtain ⟨mid, hfront, hmid⟩ := fillAll_append_eq_done h
  obtain ⟨filled, hfill, hback⟩ := fillAll_cons_eq_done hmid
  have hsame := lookup_of_fillAll_of_apart hfront
    fun key hkey => hapart key (List.mem_append_left _ hkey)
  obtain ⟨w, hw, -, hwritten⟩ := exists_of_fill hfill
  obtain rfl := hwritten (by rw [lacks, hsame]; exact hlacks)
  rw [get?, lookup_of_fillAll_of_apart hback
    fun key hkey => hapart key (List.mem_append_right _ hkey), hw]

/-- However far filling in defaults gets, every value of the tree but null and objects stays at its
    path, and every object stays one with its keys in front. If all are filled in, each path of the
    table has a value, one that is not null if the default is not, and the default itself if the
    tree lacked the path and no other path of the table leads to it or on from it. -/
theorem applyDefaults_overlay (t : Tree) (d : Defaults) :
    (∀ path w, t.lookup path = some w → w.isNull = false → w.entries? = none →
        (t.applyDefaults d).state.lookup path = some w)
      ∧ (∀ path entries, t.toValue.at? path = some (.object entries) →
        ∃ more, (t.applyDefaults d).state.toValue.at? path = some (.object more)
          ∧ keys entries <+: keys more)
      ∧ ∀ final, t.applyDefaults d = .done final → ∀ path v, d.get? path = some v →
        ∃ w, final.get? path.toList = some w ∧ (v.isNull = false → w.isNull = false)
          ∧ (t.lacks (ofText path.toList) = true →
            (∀ other ∈ keys d.entries, other ≠ path →
              Apart (ofText other.toList) (ofText path.toList)) → w = v) := by
  obtain ⟨hextends, hkeys⟩ := fillAll_keeps t d.entries
  refine ⟨fun path w hw hsolid hplain => ?_, hkeys, fun final h path v hv => ?_⟩
  · obtain ⟨w', hw', hkept⟩ := lookup_of_extends hextends hw
    rw [applyDefaults, hw', (hkept hsolid).2 hplain]
  · obtain ⟨front, back, hsplit, hfront⟩ := List.lookup_eq_some_iff.mp hv
    have hmem : (path, v) ∈ d.entries := by simp [hsplit]
    obtain ⟨w, hw, hthere⟩ := exists_of_fillAll h hmem
    refine ⟨w, hw, hthere, fun hlacks hapart => ?_⟩
    have htable : keys d.entries = keys front ++ path :: keys back := by simp [hsplit, keys]
    have hd := d.nodup_paths
    rw [htable, List.perm_middle.nodup_iff, List.nodup_cons] at hd
    have hothers : ∀ key ∈ keys front ++ keys back,
        Apart (ofText key.toList) (ofText path.toList) := by
      intro key hkey
      refine hapart key ?_ fun heq => hd.1 (heq ▸ hkey)
      rw [htable]
      exact List.mem_append.mpr
        ((List.mem_append.mp hkey).imp_right (List.mem_cons_of_mem path))
    rw [applyDefaults, hsplit] at h
    exact Option.some.inj (hw.symm.trans (get?_of_fillAll h hlacks hothers))

/-- A section with a value and a null. -/
def portTree : Tree :=
  ⟨[("server", .object [("port", .int 80), ("proxy", .null)])]⟩

/-- Defaults for both, and for two paths of which one leads on from the other. -/
def portDefaults : Defaults :=
  .ofPairs [("server.port", .int 1), ("server.proxy", .string "p"),
    ("server.tls.level", .int 2), ("server.tls", .string "off")]

theorem applyDefaults_overlay_port :
    ∃ final, portTree.applyDefaults portDefaults = .done final
      ∧ final.lookup ["server", "port"] = some (.int 80)
      ∧ final.get? "server.proxy".toList = some (.string "p")
      ∧ (∃ w, final.get? "server.tls".toList = some w ∧ w.isNull = false)
      ∧ ∃ more, final.toValue.at? ["server"] = some (.object more)
        ∧ ["port", "proxy"] <+: keys more := by
  obtain ⟨final, h⟩ : ∃ final, portTree.applyDefaults portDefaults = .done final := ⟨_, rfl⟩
  obtain ⟨hsolid, hkeys, hdone⟩ := applyDefaults_overlay portTree portDefaults
  rw [h] at hsolid hkeys
  obtain ⟨proxy, hproxy, -, hwritten⟩ := hdone final h "server.proxy" (.string "p") rfl
  obtain ⟨tls, htls, hthere, -⟩ := hdone final h "server.tls" (.string "off") rfl
  refine ⟨final, h, hsolid _ (.int 80) rfl rfl rfl, ?_, ⟨tls, htls, hthere rfl⟩,
    hkeys ["server"] [("port", .int 80), ("proxy", .null)] rfl⟩
  rw [hproxy, hwritten (by decide) (by decide)]

end Tree

end ConfigLang
