import ConfigLang.Proofs.ArrayLayout
import ConfigLang.Reference

set_option autoImplicit false

/-! # Texts with accessors

An accessor stands in brackets, and the brackets inside it are balanced. A reference is split into
the characters outside brackets and the accessors, wherever they stand. Main statements: an accessor
is read exactly up to the bracket that closes it (`readAccessor?_eq_some_iff`), and a text is split
exactly into what is interleaved in it (`splitAccessors?_eq_some_iff`). -/

namespace ConfigLang

open Document (balance balance_append Balanced)

/-! ## Closing brackets -/

theorem bracketChange_of_ne {c : Char} (hopen : c ≠ '[') (hclose : c ≠ ']') :
    Scan.Nesting.bracketChange c = 0 := by
  unfold Scan.Nesting.bracketChange
  split
  next => exact absurd rfl hopen
  next => exact absurd rfl hclose
  next => rfl

theorem balance_cons (c : Char) (text : List Char) :
    balance '[' ']' (c :: text) = Scan.Nesting.bracketChange c + balance '[' ']' text := by
  have hfirst : balance '[' ']' [c] = Scan.Nesting.bracketChange c := by
    by_cases hopen : c = '['
    · rw [hopen]
      rfl
    · by_cases hclose : c = ']'
      · rw [hclose]
        rfl
      · rw [bracketChange_of_ne hopen hclose]
        simp [balance, hopen, hclose]
  rw [← List.singleton_append, balance_append, hfirst]

/-- A text that closes the brackets it opens, and `inner` others, none before it is open. -/
structure Closes (inner : Nat) (text : List Char) : Prop where
  total : (inner : Int) + balance '[' ']' text = 0
  nonneg : ∀ front, front <+: text → 0 ≤ (inner : Int) + balance '[' ']' front

section

variable {inner : Nat} {c : Char} {text rest accessor after : List Char}

theorem closes_zero_iff : Closes 0 text ↔ Balanced text := by
  constructor
  · exact fun h => ⟨by simpa using h.total, fun front hfront => by simpa using h.nonneg front hfront⟩
  · exact fun h => ⟨by simpa using h.total, fun front hfront => by simpa using h.nonneg front hfront⟩

theorem closes_nil_iff : Closes inner [] ↔ inner = 0 := by
  constructor
  · exact fun h => by simpa [balance] using h.total
  · rintro rfl
    exact closes_zero_iff.mpr (Balanced.of_not_mem List.not_mem_nil List.not_mem_nil)

/-- Each character leaves some brackets to be closed by the rest. -/
theorem closes_cons_iff :
    Closes inner (c :: text)
      ↔ ∃ next : Nat, (next : Int) = inner + Scan.Nesting.bracketChange c ∧ Closes next text := by
  constructor
  · intro h
    have hfirst := h.nonneg [c] (List.prefix_append [c] text)
    have hnil : balance '[' ']' [] = 0 := rfl
    rw [balance_cons, hnil, Int.add_zero] at hfirst
    obtain ⟨next, hnext⟩ := Int.eq_ofNat_of_zero_le hfirst
    refine ⟨next, hnext.symm, ?_, fun front hfront => ?_⟩
    · have htotal := h.total
      rw [balance_cons] at htotal
      omega
    · have hnonneg := h.nonneg (c :: front) ((List.prefix_cons_inj c).mpr hfront)
      rw [balance_cons] at hnonneg
      omega
  · rintro ⟨next, hnext, h⟩
    refine ⟨?_, fun front hfront => ?_⟩
    · have htotal := h.total
      rw [balance_cons]
      omega
    · rcases List.prefix_cons_iff.mp hfront with rfl | ⟨part, rfl, hpart⟩
      · simp [balance]
      · have hnonneg := h.nonneg part hpart
        rw [balance_cons]
        omega

/-- Unless `c` is the closing bracket, reading goes on with the brackets that it leaves. -/
theorem readAccessor?_cons {next : Nat}
    (hnext : (next : Int) = inner + Scan.Nesting.bracketChange c) (rest : List Char) :
    readAccessor? inner (c :: rest)
      = (readAccessor? next rest).map fun (text, after) => (c :: text, after) := by
  have hopening : Scan.Nesting.bracketChange '[' = 1 := rfl
  have hclosing : Scan.Nesting.bracketChange ']' = -1 := rfl
  rw [readAccessor?.eq_def]
  dsimp only
  by_cases hclose : c = ']'
  · subst hclose
    rw [if_pos rfl]
    cases inner with
    | zero => omega
    | succ inner =>
      obtain rfl : next = inner := by omega
      rfl
  · rw [if_neg hclose]
    by_cases hopen : c = '['
    · subst hopen
      obtain rfl : next = inner + 1 := by omega
      rw [if_pos rfl]
    · rw [bracketChange_of_ne hopen hclose] at hnext
      obtain rfl : next = inner := by omega
      rw [if_neg hopen]

/-- An accessor is what stands before the bracket that closes it. -/
theorem readAccessor?_eq_some_iff :
    readAccessor? inner text = some (accessor, after)
      ↔ text = accessor ++ ']' :: after ∧ Closes inner accessor := by
  have hclosing : Scan.Nesting.bracketChange ']' = -1 := rfl
  induction text generalizing inner accessor with
  | nil => simp [readAccessor?]
  | cons c rest ih =>
    by_cases hleft : 0 ≤ (inner : Int) + Scan.Nesting.bracketChange c
    · obtain ⟨next, hnext⟩ := Int.eq_ofNat_of_zero_le hleft
      rw [readAccessor?_cons hnext.symm]
      simp only [Option.map_eq_some_iff, Prod.exists, Prod.mk.injEq]
      constructor
      · rintro ⟨front, back, hread, rfl, rfl⟩
        obtain ⟨rfl, hcloses⟩ := ih.mp hread
        exact ⟨rfl, closes_cons_iff.mpr ⟨next, hnext.symm, hcloses⟩⟩
      · rintro ⟨htext, hcloses⟩
        cases accessor with
        | nil =>
          obtain rfl := (List.cons.inj htext).1
          have hinner := closes_nil_iff.mp hcloses
          omega
        | cons d accessor =>
          obtain ⟨rfl, hrest⟩ := List.cons.inj htext
          obtain ⟨next', hnext', hcloses'⟩ := closes_cons_iff.mp hcloses
          obtain rfl : next' = next := by omega
          exact ⟨accessor, after, ih.mpr ⟨hrest, hcloses'⟩, rfl, rfl⟩
    · -- one closing bracket more than are open: the accessor ends here
      obtain ⟨rfl, rfl⟩ : c = ']' ∧ inner = 0 := by
        unfold Scan.Nesting.bracketChange at hleft
        split at hleft
        next => omega
        next => exact ⟨rfl, by omega⟩
        next => omega
      have hread : readAccessor? 0 (']' :: rest) = some ([], rest) := rfl
      rw [hread, Option.some_inj, Prod.mk.injEq]
      constructor
      · rintro ⟨rfl, rfl⟩
        exact ⟨rfl, closes_nil_iff.mpr rfl⟩
      · rintro ⟨htext, hcloses⟩
        cases accessor with
        | nil => exact ⟨rfl, (List.cons.inj htext).2⟩
        | cons d accessor =>
          obtain ⟨rfl, -⟩ := List.cons.inj htext
          obtain ⟨next, hnext, -⟩ := closes_cons_iff.mp hcloses
          omega

/-! ## Accessors among other characters -/

/-- An accessor in its brackets. -/
def inBrackets (accessor : List Char) : List Char :=
  '[' :: (accessor ++ [']'])

theorem readAccessor?_inBrackets (h : Balanced accessor) (rest : List Char) :
    readAccessor? 0 (accessor ++ ']' :: rest) = some (accessor, rest) :=
  readAccessor?_eq_some_iff.mpr ⟨rfl, closes_zero_iff.mpr h⟩

theorem splitAccessors?_cons (hc : c ≠ '[') (rest : List Char) :
    splitAccessors? (c :: rest)
      = (splitAccessors? rest).map fun (base, accessors) => (c :: base, accessors) := by
  rw [splitAccessors?, if_neg hc]

theorem splitAccessors?_inBrackets (h : Balanced accessor) (rest : List Char) :
    splitAccessors? (inBrackets accessor ++ rest)
      = (splitAccessors? rest).map fun (base, accessors) => (base, accessor :: accessors) := by
  have htext : inBrackets accessor ++ rest = '[' :: (accessor ++ ']' :: rest) := by
    simp [inBrackets]
  rw [htext, splitAccessors?, if_pos rfl]
  split
  next hread => exact absurd ((readAccessor?_inBrackets h rest).symm.trans hread) (by simp)
  next hread =>
    obtain ⟨rfl, rfl⟩ := Prod.mk.inj
      (Option.some.inj ((readAccessor?_inBrackets h rest).symm.trans hread))
    rfl

end

/-- A text in which the characters of `base`, in their order, stand outside brackets, and the
    accessors, in theirs, inside them. -/
inductive Interleaved : List Char → List (List Char) → List Char → Prop where
  | nil : Interleaved [] [] []
  | char {c : Char} {base text : List Char} {accessors : List (List Char)} (hc : c ≠ '[')
      (h : Interleaved base accessors text) : Interleaved (c :: base) accessors (c :: text)
  | accessor {accessor base text : List Char} {accessors : List (List Char)}
      (hbalanced : Balanced accessor) (h : Interleaved base accessors text) :
      Interleaved base (accessor :: accessors) (inBrackets accessor ++ text)

section

variable {base text : List Char} {accessors : List (List Char)}

/-- Splitting a text finds what is interleaved in it. -/
theorem splitAccessors?_eq_some_iff :
    splitAccessors? text = some (base, accessors) ↔ Interleaved base accessors text := by
  constructor
  · intro h
    fun_induction splitAccessors? text generalizing base accessors with
    | case1 =>
      obtain ⟨rfl, rfl⟩ := Prod.mk.inj (Option.some.inj h)
      exact .nil
    | case2 rest hread => exact absurd h (by simp)
    | case3 rest accessor after hread ih =>
      simp only [Option.map_eq_some_iff, Prod.exists, Prod.mk.injEq] at h
      obtain ⟨base', accessors', hsplit, rfl, rfl⟩ := h
      obtain ⟨rfl, hcloses⟩ := readAccessor?_eq_some_iff.mp hread
      have htext : '[' :: (accessor ++ ']' :: after) = inBrackets accessor ++ after := by
        simp [inBrackets]
      rw [htext]
      exact .accessor (closes_zero_iff.mp hcloses) (ih hsplit)
    | case4 c rest hc ih =>
      simp only [Option.map_eq_some_iff, Prod.exists, Prod.mk.injEq] at h
      obtain ⟨base', accessors', hsplit, rfl, rfl⟩ := h
      exact .char hc (ih hsplit)
  · intro h
    induction h with
    | nil => rw [splitAccessors?]
    | char hc h ih => rw [splitAccessors?_cons hc, ih, Option.map_some]
    | accessor hbalanced h ih => rw [splitAccessors?_inBrackets hbalanced, ih, Option.map_some]

/-- Accessors behind the characters outside brackets. -/
theorem interleaved_append (hbase : '[' ∉ base) (h : ∀ accessor ∈ accessors, Balanced accessor) :
    Interleaved base accessors (base ++ accessors.flatMap inBrackets) := by
  induction base with
  | nil =>
    induction accessors with
    | nil => exact .nil
    | cons accessor rest ih =>
      rw [List.forall_mem_cons] at h
      exact .accessor h.1 (ih h.2)
  | cons c base ih =>
    rw [List.mem_cons, not_or] at hbase
    exact .char (fun heq => hbase.1 heq.symm) (ih hbase.2)

namespace Interleaved

theorem open_not_mem (h : Interleaved base accessors text) : '[' ∉ base := by
  induction h with
  | nil => exact List.not_mem_nil
  | char hc h ih =>
    rw [List.mem_cons, not_or]
    exact ⟨fun heq => hc heq.symm, ih⟩
  | accessor hbalanced h ih => exact ih

theorem balanced (h : Interleaved base accessors text) :
    ∀ accessor ∈ accessors, Balanced accessor := by
  induction h with
  | nil => exact List.forall_mem_nil _
  | char hc h ih => exact ih
  | accessor hbalanced h ih => exact List.forall_mem_cons.mpr ⟨hbalanced, ih⟩

/-- Without accessors a text is what stands outside brackets. -/
theorem eq_of_nil (h : Interleaved base [] text) : text = base := by
  generalize hnone : ([] : List (List Char)) = none at h
  induction h with
  | nil => rfl
  | char hc h ih => rw [ih hnone]
  | accessor hbalanced h ih => exact absurd hnone (by simp)

/-- Both brackets stand in a text with an accessor. -/
theorem brackets_mem (h : Interleaved base accessors text) (hne : accessors ≠ []) :
    '[' ∈ text ∧ ']' ∈ text := by
  induction h with
  | nil => exact absurd rfl hne
  | char hc h ih =>
    obtain ⟨hopen, hclose⟩ := ih hne
    exact ⟨List.mem_cons_of_mem _ hopen, List.mem_cons_of_mem _ hclose⟩
  | accessor hbalanced h ih => simp [inBrackets]

end Interleaved

end

/-! ## References with accessors -/

namespace Scope

variable {base text : List Char} {accessors : List (List Char)}

/-- A text with accessors refers to what they pick, one after another, from the value at its base. -/
theorem resolveReference_of_interleaved (scope : Scope) (h : Interleaved base accessors text)
    (hne : accessors ≠ []) :
    scope.resolveReference text
      = (scope.lookupPath base).bind
          fun v => accessors.foldlM (fun v accessor => v.access accessor text) v := by
  obtain ⟨hopen, hclose⟩ := h.brackets_mem hne
  have hboth : (text.contains '[' && text.contains ']') = true := by simp [hopen, hclose]
  rw [resolveReference, if_pos hboth, resolveIndexed, splitAccessors?_eq_some_iff.mpr h]
  rfl

end Scope

end ConfigLang
