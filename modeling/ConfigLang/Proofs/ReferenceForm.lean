import ConfigLang.Proofs.IndexedReferences
import ConfigLang.Proofs.PathReferences

set_option autoImplicit false

/-! # The form of references with accessors

A path with its accessors behind it has the form of a reference. Splitting does not look at where an
accessor stands: a text with accessors among the characters of a path refers to what the same path
with the same accessors behind it does. Main statement: where a text with brackets refers to a value
at all, it has the form of a reference exactly if nothing but a further accessor stands behind an
accessor, and whatever its form, a reference of that form refers to the same value
(`Scope.resolveReference_form`). -/

namespace ConfigLang

open Document (balance balance_append Balanced)

/-! ## Groups of brackets -/

namespace Document.Balanced

variable {text rest inner : List Char}

theorem of_append_left (h : Balanced (text ++ rest)) (htext : Balanced text) : Balanced rest where
  total := by
    have htotal := h.total
    rwa [balance_append, htext.total, Int.zero_add] at htotal
  nonneg := by
    intro front hfront
    have hnonneg := h.nonneg (text ++ front) ((List.prefix_append_right_inj text).mpr hfront)
    rwa [balance_append, htext.total, Int.zero_add] at hnonneg

/-- A balanced text that begins with a group holds all of it. -/
theorem eq_inBrackets_append {front back : List Char} (h : Balanced inner) (hfront : Balanced front)
    (hne : front ≠ []) (htext : inBrackets inner ++ rest = front ++ back) :
    ∃ part, front = inBrackets inner ++ part ∧ Balanced part := by
  have hboth : front <+: inBrackets inner ++ rest := htext ▸ List.prefix_append front back
  by_cases hwhole : front = inBrackets inner
  · exact ⟨[], by rw [hwhole, List.append_nil], .of_not_mem List.not_mem_nil List.not_mem_nil⟩
  · rcases List.prefix_or_prefix_of_prefix hboth (List.prefix_append _ rest) with hin | ⟨part, rfl⟩
    · have hopen := h.open_bracketed hin hne hwhole
      rw [hfront.total] at hopen
      exact absurd hopen (Int.lt_irrefl 0)
    · exact ⟨part, rfl, hfront.of_append_left h.bracketed⟩

end Document.Balanced

/-- Behind a group of brackets stands another one or nothing. -/
def GroupsLast (text : List Char) : Prop :=
  ∀ front c back, text = front ++ ']' :: c :: back → Balanced (front ++ [']']) → c = '['

section

variable {base text : List Char} {accessors : List (List Char)}

/-- What follows a part of `text` that is balanced follows it behind any balanced text. -/
theorem GroupsLast.of_append {lead : List Char} (h : GroupsLast (lead ++ text))
    (hlead : Balanced lead) : GroupsLast text := by
  rintro front c back rfl hfront
  refine h (lead ++ front) c back (by rw [List.append_assoc]) ?_
  rw [List.append_assoc]
  exact hlead.append hfront

theorem groupsLast_groups (h : ∀ accessor ∈ accessors, Balanced accessor) :
    GroupsLast (accessors.flatMap inBrackets) := by
  induction accessors with
  | nil =>
    intro front c back htext
    exact absurd htext (by simp)
  | cons accessor rest ih =>
    rw [List.forall_mem_cons] at h
    intro front c back htext hfront
    have hsplit : inBrackets accessor ++ rest.flatMap inBrackets
        = (front ++ [']']) ++ c :: back := by
      simpa using htext
    obtain ⟨part, hpart, hbalanced⟩ := h.1.eq_inBrackets_append hfront (by simp) hsplit
    rw [hpart, List.append_assoc, List.append_cancel_left_eq] at hsplit
    rcases List.eq_nil_or_concat part with rfl | ⟨front', last, rfl⟩
    · cases rest with
      | nil => exact absurd hsplit (by simp)
      | cons next others => exact (List.cons.inj hsplit).1.symm
    · rw [List.concat_eq_append] at hpart hbalanced hsplit
      obtain rfl : last = ']' := by
        have hlast := congrArg List.getLast? hpart
        rw [← List.append_assoc, List.getLast?_concat, List.getLast?_concat] at hlast
        exact (Option.some.inj hlast).symm
      exact ih h.2 front' c back (by simpa using hsplit) hbalanced

/-- Characters that are no brackets, and groups behind them. -/
theorem groupsLast_append (hopen : '[' ∉ base) (hclose : ']' ∉ base)
    (h : ∀ accessor ∈ accessors, Balanced accessor) :
    GroupsLast (base ++ accessors.flatMap inBrackets) := by
  intro front c back htext hfront
  rcases Text.append_eq_append_cons htext with ⟨part, rfl, hgroups⟩ | ⟨part, hbase, -⟩
  · rw [List.append_assoc] at hfront
    exact groupsLast_groups h part c back hgroups
      (hfront.of_append_left (.of_not_mem hopen hclose))
  · exact absurd (by simp [hbase]) hclose

/-- Where groups stand last, nothing is interleaved. -/
theorem Interleaved.eq_append (h : Interleaved base accessors text) (hclose : ']' ∉ base)
    (hlast : GroupsLast text) : text = base ++ accessors.flatMap inBrackets := by
  induction h with
  | nil => rfl
  | @char c base text accessors hc h ih =>
    rw [List.mem_cons, not_or] at hclose
    have hsingle : Balanced [c] :=
      .of_not_mem (by simpa using fun heq => hc heq.symm) (by simpa using hclose.1)
    have hrest : GroupsLast ([c] ++ text) := hlast
    rw [ih hclose.2 (hrest.of_append hsingle), List.cons_append]
  | @accessor accessor base text accessors hbalanced h ih =>
    have htext := ih hclose (hlast.of_append hbalanced.bracketed)
    cases base with
    | nil => rw [htext, List.nil_append, List.nil_append, List.flatMap_cons]
    | cons c base =>
      -- `c` stands behind the group
      have hopen := h.open_not_mem
      rw [List.mem_cons, not_or] at hopen
      refine absurd (hlast ('[' :: accessor) c (base ++ accessors.flatMap inBrackets) ?_
        hbalanced.bracketed).symm hopen.1
      rw [htext]
      simp [inBrackets]

end

/-! ## Texts of the form of a reference -/

/-- A text that is a path of identifiers with accessors behind it. -/
def IsIndexed (text : List Char) : Prop :=
  ∃ path accessors, KeyPath.IsNamed path ∧ accessors ≠ [] ∧ (∀ accessor ∈ accessors, Balanced accessor)
    ∧ text = (KeyPath.text path).toList ++ accessors.flatMap inBrackets

theorem IsIndexed.groupsLast {text : List Char} (h : IsIndexed text) : GroupsLast text := by
  obtain ⟨path, accessors, hpath, -, hbalanced, rfl⟩ := h
  exact groupsLast_append (hpath.isDotted.not_mem rfl) (hpath.isDotted.not_mem rfl) hbalanced

/-- The text of a reference stands only in its faults. -/
theorem Value.access_congr (v : Value) (accessor whole other : List Char) :
    (v.access accessor whole).mapError Fault.code = (v.access accessor other).mapError Fault.code := by
  unfold access
  dsimp only
  split
  · split
    · rfl
    · split <;> rfl
  · split
    · rfl
    · split <;> rfl

theorem Value.foldlM_access_congr (v : Value) (accessors : List (List Char))
    (whole other : List Char) :
    (accessors.foldlM (fun (v : Value) accessor => v.access accessor whole) v).mapError Fault.code
      = (accessors.foldlM (fun (v : Value) accessor => v.access accessor other) v).mapError
          Fault.code := by
  induction accessors generalizing v with
  | nil => rfl
  | cons accessor rest ih => exact mapError_bind_congr (v.access_congr accessor whole other) ih

/-! ## Keys that are identifiers -/

namespace Value

/-- Every key on the way to a member is an identifier. -/
def NamesKeys (v : Value) : Prop :=
  ∀ path w, v.at? path = some w → ∀ key ∈ path, isIdentifier key.toList = true

theorem namesKeys_of_entries?_eq_none {v : Value} (h : v.entries? = none) : v.NamesKeys := by
  intro path w hw
  cases path with
  | nil => exact List.forall_mem_nil _
  | cons key path => exact absurd hw (by simp [at?_cons_of_entries?_eq_none h])

theorem namesKeys_object {entries : List (String × Value)}
    (h : ∀ entry ∈ entries, isIdentifier entry.1.toList = true ∧ entry.2.NamesKeys) :
    (object entries).NamesKeys := by
  intro path w hw
  cases path with
  | nil => exact List.forall_mem_nil _
  | cons key path =>
    rw [at?_object, Option.bind_eq_some_iff] at hw
    obtain ⟨held, hheld, hw⟩ := hw
    obtain ⟨before, after, hentries, -⟩ := List.lookup_eq_some_iff.mp hheld
    obtain ⟨hkey, hnames⟩ := h (key, held) (by simp [hentries])
    exact List.forall_mem_cons.mpr ⟨hkey, hnames path w hw⟩

end Value

/-! ## References -/

namespace Scope

variable {text : List Char} {v : Value}

/-- A path that leads to a value, from the root or the section, is a path of identifiers. -/
theorem isNamed_of_lookupPath {scope : Scope} (hkeys : scope.tree.toValue.NamesKeys)
    (h : scope.lookupPath text = .ok v) : KeyPath.IsNamed (KeyPath.ofText text) := by
  have hnamed : ∀ path w, scope.tree.lookup path = some w →
      ∀ key ∈ path, isIdentifier key.toList = true := by
    intro path w hw
    rw [Tree.lookup_of_ne_nil _ (Tree.ne_nil_of_lookup hw)] at hw
    exact hkeys path w hw
  refine ⟨?_, ?_⟩
  · simpa [KeyPath.ofText] using Text.splitOn_ne_nil '.' text
  · rw [lookupPath, find?_eq] at h
    cases hroot : scope.tree.lookup (KeyPath.ofText text) with
    | some w => exact hnamed _ w hroot
    | none =>
      cases hsection : scope.tree.lookup (scope.sectionPath ++ KeyPath.ofText text) with
      | some w => exact fun key hkey => hnamed _ w hsection key (List.mem_append_right _ hkey)
      | none =>
        rw [hroot, hsection] at h
        exact absurd h (by simp)

/-- A text that refers to a value is some path with accessors among or behind its characters. -/
theorem exists_of_resolveReference {scope : Scope} (hkeys : scope.tree.toValue.NamesKeys)
    (hopen : '[' ∈ text) (hclose : ']' ∈ text) (h : scope.resolveReference text = .ok v) :
    ∃ path accessors, KeyPath.IsNamed path ∧ accessors ≠ []
      ∧ Interleaved (KeyPath.text path).toList accessors text := by
  have hboth : (text.contains '[' && text.contains ']') = true := by simp [hopen, hclose]
  rw [resolveReference, if_pos hboth, resolveIndexed] at h
  cases hsplit : splitAccessors? text with
  | none =>
    rw [hsplit] at h
    exact absurd h (by simp)
  | some split =>
    obtain ⟨base, accessors⟩ := split
    rw [hsplit] at h
    obtain ⟨held, hheld, -⟩ := exists_of_bind h
    have hinterleaved := splitAccessors?_eq_some_iff.mp hsplit
    refine ⟨KeyPath.ofText base, accessors, isNamed_of_lookupPath hkeys hheld, ?_, ?_⟩
    · rintro rfl
      exact hinterleaved.open_not_mem (hinterleaved.eq_of_nil ▸ hopen)
    · rw [KeyPath.toList_text_ofText]
      exact hinterleaved

/-- Texts with the same characters outside brackets and the same accessors refer to the same. -/
theorem resolveReference_congr (scope : Scope) {base other : List Char}
    {accessors : List (List Char)} (h : Interleaved base accessors text)
    (hother : Interleaved base accessors other) (hne : accessors ≠ []) :
    (scope.resolveReference text).mapError Fault.code
      = (scope.resolveReference other).mapError Fault.code := by
  rw [scope.resolveReference_of_interleaved h hne, scope.resolveReference_of_interleaved hother hne]
  exact mapError_bind_congr rfl fun held => held.foldlM_access_congr accessors text other

/-- A text that refers to a value has the form of a reference exactly if every group of brackets is
    followed by another one or by nothing, and whatever its form, the path with the accessors behind
    it refers to the same value. -/
theorem resolveReference_form (scope : Scope) (hkeys : scope.tree.toValue.NamesKeys)
    (hopen : '[' ∈ text) (hclose : ']' ∈ text) (h : scope.resolveReference text = .ok v) :
    (IsIndexed text ↔ GroupsLast text)
      ∧ ∃ path accessors, KeyPath.IsNamed path ∧ accessors ≠ []
        ∧ Interleaved (KeyPath.text path).toList accessors text
        ∧ scope.resolveReference ((KeyPath.text path).toList ++ accessors.flatMap inBrackets)
          = .ok v := by
  obtain ⟨path, accessors, hpath, hne, hinterleaved⟩ := exists_of_resolveReference hkeys hopen hclose h
  have hbase : ∀ {d : Char}, (Document.isNameChar d || d == '.') = false →
      d ∉ (KeyPath.text path).toList := hpath.isDotted.not_mem
  refine ⟨⟨IsIndexed.groupsLast, fun hlast => ?_⟩, path, accessors, hpath, hne, hinterleaved, ?_⟩
  · exact ⟨path, accessors, hpath, hne, hinterleaved.balanced,
      hinterleaved.eq_append (hbase rfl) hlast⟩
  · exact eq_ok_of_mapError_eq (scope.resolveReference_congr hinterleaved
      (interleaved_append (hbase rfl) hinterleaved.balanced) hne) h

/-- Two characters behind an accessor become part of the key before it. -/
theorem resolveReference_form_cells :
    let scope : Scope := { tree := ⟨[("cells", .array [.int 1])]⟩ }
    scope.resolveReference "cel[0]ls".toList = .ok (.int 1) ∧ ¬ IsIndexed "cel[0]ls".toList
      ∧ ∃ path accessors, KeyPath.IsNamed path
        ∧ Interleaved (KeyPath.text path).toList accessors "cel[0]ls".toList
        ∧ scope.resolveReference ((KeyPath.text path).toList ++ accessors.flatMap inBrackets)
          = .ok (.int 1) := by
  intro scope
  have hkeys : scope.tree.toValue.NamesKeys :=
    Value.namesKeys_object (List.forall_mem_singleton.mpr
      ⟨by decide, Value.namesKeys_of_entries?_eq_none rfl⟩)
  have hvalue : scope.resolveReference "cel[0]ls".toList = .ok (.int 1) := by cbv
  obtain ⟨hform, path, accessors, hpath, -, hinterleaved, hreference⟩ :=
    resolveReference_form scope hkeys (by decide) (by decide) hvalue
  refine ⟨hvalue, fun hindexed => ?_, path, accessors, hpath, hinterleaved, hreference⟩
  have hgroup : Document.Balanced ("cel".toList ++ inBrackets ['0']) :=
    (Document.Balanced.of_not_mem (by decide) (by decide)).append
      (Document.Balanced.of_not_mem (by decide) (by decide)).bracketed
  exact absurd (hform.mp hindexed "cel[0".toList 'l' ['s'] rfl hgroup) (by decide)

/-- The key behind the accessor is looked up before it. -/
theorem resolveReference_form_servers :
    let scope : Scope := { tree := ⟨[("servers", .object [("name", .array [.string "a"])])]⟩ }
    scope.tree.toValue.NamesKeys ∧ '[' ∈ "servers[0].name".toList ∧ ']' ∈ "servers[0].name".toList
      ∧ scope.resolveReference "servers[0].name".toList = .ok (.string "a")
      ∧ ¬ IsIndexed "servers[0].name".toList := by
  intro scope
  have hname : (Value.object [("name", .array [.string "a"])]).NamesKeys :=
    Value.namesKeys_object (List.forall_mem_singleton.mpr
      ⟨by decide, Value.namesKeys_of_entries?_eq_none rfl⟩)
  have hkeys : scope.tree.toValue.NamesKeys :=
    Value.namesKeys_object (List.forall_mem_singleton.mpr ⟨by decide, hname⟩)
  refine ⟨hkeys, by decide, by decide, by cbv, fun hindexed => ?_⟩
  have hgroup : Document.Balanced ("servers".toList ++ inBrackets ['0']) :=
    (Document.Balanced.of_not_mem (by decide) (by decide)).append
      (Document.Balanced.of_not_mem (by decide) (by decide)).bracketed
  exact absurd (hindexed.groupsLast "servers[0".toList '.' "name".toList rfl hgroup) (by decide)

end Scope

end ConfigLang
