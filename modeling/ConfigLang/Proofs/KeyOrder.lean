import ConfigLang.Proofs.TreeWriting
import Mathlib.Data.Multiset.FinsetOps

set_option autoImplicit false

/-! # The order of keys

Two values may say the same and differ in the order of the keys of their objects (`Value.Reordered`).
Who does not look at that order sees at each path a plain value, or an object with a bag of keys; that
view is all that two such values have to share (`reordered_iff_view_eq`), and what a write does to it
can be told from the view alone (`Tree.view_setPath`). So writes at paths that are apart may change places
(`Value.View.write_comm`). -/

namespace ConfigLang

open Entries KeyPath

namespace KeyPath

variable {path other place : List String}

theorem Apart.symm (h : Apart path other) : Apart other path :=
  ⟨h.2, h.1⟩

/-- What leads on from one of two paths that are apart is apart from the other. -/
theorem Apart.of_prefix (h : Apart path other) (hplace : other <+: place) : Apart path place :=
  ⟨fun hpath => (List.prefix_or_prefix_of_prefix hpath hplace).elim h.1 h.2,
    fun hpath => h.2 (hplace.trans hpath)⟩

end KeyPath

namespace Value

/-! ## Equal but for the order -/

/-- The same value, but that objects at any depth may have their keys in another order. -/
inductive Reordered : Value → Value → Prop
  | same (v : Value) : Reordered v v
  | object {old new : List (String × Value)} (hkeys : (keys old).Perm (keys new))
    (hheld : ∀ key v w, old.lookup key = some v → new.lookup key = some w → Reordered v w) :
    Reordered (.object old) (.object new)

/-! ## What can be seen without the order -/

/-- What stands at a path for who does not look at the order of keys. -/
inductive Seen where
  | plain (v : Value)
  | object (names : Multiset String)

/-- What stands at all paths. -/
abbrev View : Type := List String → Option Seen

def seen : Value → Seen
  | .object entries => .object (keys entries)
  | v => .plain v

def view (v : Value) : View :=
  fun path => (v.at? path).map seen

theorem eq_of_seen_eq_plain {v w : Value} (h : v.seen = .plain w) : v = w := by
  cases v with
  | object entries => exact absurd h (by simp [seen])
  | _ => exact Seen.plain.inj h

theorem view_append (v : Value) (path tail : List String) :
    v.view (path ++ tail) = (v.at? path).bind (·.view tail) := by
  rw [view, at?_append]
  cases v.at? path <;> rfl

theorem view_object (entries : List (String × Value)) (key : String) (path : List String) :
    (object entries).view (key :: path) = (entries.lookup key).bind (·.view path) := by
  rw [view, at?_object]
  cases entries.lookup key <;> rfl

theorem Reordered.view_eq {v w : Value} (h : Reordered v w) : v.view = w.view := by
  induction h with
  | same v => rfl
  | @object old new hkeys hheld ih =>
    funext path
    cases path with
    | nil => exact congrArg (fun names => some (Seen.object names)) (Quot.sound hkeys)
    | cons key path =>
      rw [view_object, view_object]
      cases hold : old.lookup key with
      | none =>
        have hnew : new.lookup key = none :=
          lookup_eq_none_iff.mpr fun hmem => lookup_eq_none_iff.mp hold (hkeys.mem_iff.mpr hmem)
        rw [hnew]
      | some held =>
        cases hnew : new.lookup key with
        | none =>
          have hnone := lookup_eq_none_iff.mp hnew
          rw [← hkeys.mem_iff, ← lookup_eq_none_iff, hold] at hnone
          exact absurd hnone (by simp)
        | some held' => exact congrFun (ih key held held' hold hnew) path

/-- What a key holds is smaller than the object. -/
theorem sizeOf_lookup_lt {entries : List (String × Value)} {key : String} {v : Value}
    (h : entries.lookup key = some v) : sizeOf v < sizeOf (object entries) := by
  obtain ⟨front, back, rfl, -⟩ := List.lookup_eq_some_iff.mp h
  have hmem : (key, v) ∈ front ++ (key, v) :: back := by simp
  have hlt := List.sizeOf_lt_of_mem hmem
  simp only [Prod.mk.sizeOf_spec, object.sizeOf_spec] at hlt ⊢
  omega

theorem reordered_of_view_eq {v w : Value} (h : v.view = w.view) : Reordered v w := by
  induction hsize : sizeOf v using Nat.strongRecOn generalizing v w with
  | ind size ih =>
    subst hsize
    have hroot : v.seen = w.seen := Option.some.inj (congrFun h [])
    cases v with
    | object old =>
      cases w with
      | object new =>
        refine .object (Quotient.exact (Seen.object.inj hroot)) fun key held held' hold hnew => ?_
        refine ih _ (sizeOf_lookup_lt hold) (funext fun path => ?_) rfl
        have hpath := congrFun h (key :: path)
        rwa [view_object, view_object, hold, hnew] at hpath
      | _ => exact absurd hroot (by simp [seen])
    | _ =>
      obtain rfl := eq_of_seen_eq_plain hroot.symm
      exact .same _

/-- Values are the same up to the order of keys if they look the same without it. -/
theorem reordered_iff_view_eq {v w : Value} : Reordered v w ↔ v.view = w.view :=
  ⟨Reordered.view_eq, reordered_of_view_eq⟩

/-- What values that are the same up to the order of keys hold at a path is so too. -/
theorem Reordered.at? {v w : Value} (h : Reordered v w) (path : List String) :
    Option.Rel Reordered (v.at? path) (w.at? path) := by
  have hview : ∀ tail, (v.at? path).bind (·.view tail) = (w.at? path).bind (·.view tail) := by
    intro tail
    rw [← view_append, ← view_append, h.view_eq]
  cases hv : v.at? path with
  | none =>
    cases hw : w.at? path with
    | none => exact .none
    | some held' => exact absurd (hview []) (by simp [hv, hw, view, Value.at?])
  | some held =>
    cases hw : w.at? path with
    | none => exact absurd (hview []) (by simp [hv, hw, view, Value.at?])
    | some held' =>
      refine .some (reordered_iff_view_eq.mpr (funext fun tail => ?_))
      simpa [hv, hw] using hview tail

/-! ## Writing -/

namespace View

/-- The keys of what is seen, if it is an object. -/
def names : Option Seen → Multiset String
  | some (.object names) => names
  | _ => 0

/-- What is seen behind a write: below the path what the value shows, on the way an object with the
    next key among its own, and elsewhere what was seen before. -/
def write (path : List String) (v : Value) (before : View) : View := fun other =>
  if path <+: other then v.view (other.drop path.length)
  else if other <+: path then
    some (.object (Multiset.ndinsert (path.getD other.length "") (names (before other))))
  else before other

variable {path other : List String} {v w : Value} {before : View}

theorem write_append (path tail : List String) (v : Value) (before : View) :
    before.write path v (path ++ tail) = v.view tail := by
  rw [write, if_pos (List.prefix_append path tail), List.drop_left]

theorem write_above (above : List String) (next : String) (below : List String) (v : Value)
    (before : View) : before.write (above ++ next :: below) v above
      = some (.object (Multiset.ndinsert next (names (before above)))) := by
  have hshort : ¬ above ++ next :: below <+: above := by
    intro hleads
    have hle := hleads.length_le
    rw [List.length_append, List.length_cons] at hle
    omega
  rw [write, if_neg hshort, if_pos (List.prefix_append _ _)]
  simp

theorem write_of_apart (h : Apart path other) (v : Value) (before : View) :
    before.write path v other = before other := by
  rw [write, if_neg h.1, if_neg h.2]

theorem ndinsert_comm (key other : String) (names : Multiset String) :
    Multiset.ndinsert key (Multiset.ndinsert other names)
      = Multiset.ndinsert other (Multiset.ndinsert key names) := by
  by_cases heq : key = other
  · rw [heq]
  · have heq' : other ≠ key := fun h => heq h.symm
    by_cases hkey : key ∈ names <;> by_cases hother : other ∈ names
      <;> simp [hkey, hother, heq, heq', Multiset.cons_swap]

/-- Writes at paths that are apart may change places. -/
theorem write_comm (h : Apart path other) (v w : Value) (before : View) :
    (before.write other w).write path v = (before.write path v).write other w := by
  funext place
  rcases prefix_or_above_or_apart path place with ⟨tail, rfl⟩ | ⟨next, below, habove⟩ | hplace
  · have hother : Apart other (path ++ tail) := h.symm.of_prefix (List.prefix_append _ _)
    rw [write_append, write_of_apart hother, write_append]
  · rcases prefix_or_above_or_apart other place with ⟨tail, rfl⟩ | ⟨next', below', habove'⟩ | hplace'
    · have hpath : Apart path (other ++ tail) := h.of_prefix (List.prefix_append _ _)
      rw [write_of_apart hpath, write_append, write_append]
    · rw [habove, habove', write_above, write_above, write_above, write_above]
      exact congrArg (fun names => some (Seen.object names)) (ndinsert_comm _ _ _)
    · rw [write_of_apart hplace', habove, write_above, write_above, write_of_apart hplace']
  · rw [write_of_apart hplace]
    rcases prefix_or_above_or_apart other place with ⟨tail, rfl⟩ | ⟨next', below', habove'⟩ | hplace'
    · rw [write_append, write_append]
    · rw [habove', write_above, write_above, write_of_apart hplace]
    · rw [write_of_apart hplace', write_of_apart hplace', write_of_apart hplace]

end View

end Value

namespace Tree

open Value

/-- What a write does can be told from what was seen before. -/
theorem view_setPath {t t' : Tree} {path : List String} {v : Value} (h : t.setPath path v = .ok t') :
    t'.toValue.view = t.toValue.view.write path v := by
  funext other
  rcases prefix_or_above_or_apart path other with ⟨tail, rfl⟩ | ⟨next, below, rfl⟩ | hapart
  · rw [View.write_append, view_append, at?_of_setPath h, Option.bind_some]
  · obtain ⟨new, hnew, ⟨hnone, hkeys⟩ | ⟨old, hold, hkeys⟩⟩ := exists_of_setPath_above h rfl
    · rw [View.write_above, view, view, hnew, hnone, Option.map_some, seen, hkeys]
      rfl
    · rw [View.write_above, view, view, hnew, hold, Option.map_some, seen, hkeys]
      refine congrArg (fun names => some (Seen.object names)) ?_
      show _ = Multiset.ndinsert next (↑(keys old))
      split
      next hmem => exact (Multiset.ndinsert_of_mem hmem).symm
      next hmem =>
        rw [Multiset.ndinsert_of_notMem hmem]
        exact Quot.sound (List.perm_append_singleton next (keys old))
  · rw [View.write_of_apart hapart, view, view, at?_of_setPath_of_apart h hapart]

end Tree

end ConfigLang
