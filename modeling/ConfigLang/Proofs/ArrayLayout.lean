import ConfigLang.Proofs.ArrayText
import ConfigLang.Proofs.LineBreaks

set_option autoImplicit false

/-! # Arrays in any layout

An array may stand on one line or on several: behind each opening bracket and each comma, and before
each closing bracket, there may be blanks, line breaks among them. Main statement: in every layout it
resolves to the same value (`Layout.resolveBy_eq`). Arrays may be nested, and each of them may be laid
out in its own way. -/

namespace ConfigLang

open Text

/-! ## Balanced texts -/

namespace Document

/-- A text that closes the brackets it opens, and none before it opens it. -/
structure Balanced (text : List Char) : Prop where
  total : balance '[' ']' text = 0
  nonneg : ∀ front, front <+: text → 0 ≤ balance '[' ']' front

namespace Balanced

variable {text rest inner front : List Char}

theorem append (h : Balanced text) (hrest : Balanced rest) : Balanced (text ++ rest) where
  total := by rw [balance_append, h.total, hrest.total, Int.add_zero]
  nonneg := by
    intro front hfront
    rcases List.prefix_or_prefix_of_prefix hfront (List.prefix_append text rest) with hin | ⟨part, rfl⟩
    · exact h.nonneg front hin
    · rw [balance_append, h.total, Int.zero_add]
      exact hrest.nonneg part ((List.prefix_append_right_inj text).mp hfront)

theorem of_not_mem (hopens : '[' ∉ text) (hcloses : ']' ∉ text) : Balanced text := by
  have hzero : ∀ front, front <+: text → balance '[' ']' front = 0 := by
    intro front hfront
    rw [balance, List.count_eq_zero.mpr fun hmem => hopens (hfront.subset hmem),
      List.count_eq_zero.mpr fun hmem => hcloses (hfront.subset hmem)]
    rfl
  exact ⟨hzero text (List.prefix_refl text), fun front hfront => Int.le_of_eq (hzero front hfront).symm⟩

theorem of_blank (h : ∀ c ∈ text, isBlank c = true) : Balanced text :=
  of_not_mem (fun hmem => absurd (h _ hmem) (by decide)) fun hmem => absurd (h _ hmem) (by decide)

theorem balance_opening (text : List Char) :
    balance '[' ']' ('[' :: text) = 1 + balance '[' ']' text := by
  rw [← List.singleton_append, balance_append]
  rfl

/-- Between its brackets a text stays open. -/
theorem open_bracketed (h : Balanced inner) (hfront : front <+: '[' :: (inner ++ [']']))
    (hne : front ≠ []) (hproper : front ≠ '[' :: (inner ++ [']'])) : 0 < balance '[' ']' front := by
  rcases List.prefix_cons_iff.mp hfront with rfl | ⟨part, rfl, hpart⟩
  · exact absurd rfl hne
  · rcases List.prefix_concat_iff.mp hpart with rfl | hin
    · exact absurd rfl hproper
    · have hnonneg := h.nonneg part hin
      rw [balance_opening]
      omega

theorem bracketed (h : Balanced inner) : Balanced ('[' :: (inner ++ [']'])) := by
  have htotal : balance '[' ']' ('[' :: (inner ++ [']'])) = 0 := by
    rw [balance_opening, balance_append, h.total]
    rfl
  refine ⟨htotal, fun front hfront => ?_⟩
  by_cases hne : front = []
  · rw [hne]
    exact Int.le_refl 0
  · by_cases hproper : front = '[' :: (inner ++ [']'])
    · rw [hproper, htotal]
    · exact Int.le_of_lt (h.open_bracketed hfront hne hproper)

end Balanced

end Document

/-! ## Nested arrays -/

/-- A scalar whose text holds no mark that would count where it stands in quotes. -/
def Scalar.IsPlain : Scalar → Prop
  | .string s => '[' ∉ s.toList ∧ ']' ∉ s.toList ∧ s.toList.getLast? ≠ some '\\'
    ∧ ¬ ['/', '*'] <:+: quote s.toList
  | _ => True

instance : (x : Scalar) → Decidable x.IsPlain
  | .null => inferInstanceAs (Decidable True)
  | .bool _ => inferInstanceAs (Decidable True)
  | .int _ => inferInstanceAs (Decidable True)
  | .string s => inferInstanceAs (Decidable ('[' ∉ s.toList ∧ ']' ∉ s.toList
    ∧ s.toList.getLast? ≠ some '\\' ∧ ¬ ['/', '*'] <:+: quote s.toList))

/-- A scalar, or an array of such values. -/
inductive Nested where
  | scalar (x : Scalar) (plain : x.IsPlain)
  | array (items : List Nested)

namespace Nested

mutual

def value : Nested → Value
  | .scalar x _ => x.value
  | .array items => .array (values items)

def values : List Nested → List Value
  | [] => []
  | item :: rest => item.value :: values rest

end

mutual

/-- The text of a value on one line. -/
def literal : Nested → List Char
  | .scalar x _ => x.literal
  | .array items => '[' :: ([','].intercalate (literals items) ++ [']'])

def literals : List Nested → List (List Char)
  | [] => []
  | item :: rest => item.literal :: literals rest

end

mutual

/-- What holds of scalars, and of arrays whose items it holds of, holds of all. -/
theorem induction {motive : Nested → Prop} (scalar : ∀ x plain, motive (.scalar x plain))
    (array : ∀ items, (∀ item ∈ items, motive item) → motive (.array items)) (x : Nested) :
    motive x :=
  match x with
  | .scalar x plain => scalar x plain
  | .array items => array items (induction_items scalar array items)

theorem induction_items {motive : Nested → Prop} (scalar : ∀ x plain, motive (.scalar x plain))
    (array : ∀ items, (∀ item ∈ items, motive item) → motive (.array items)) (items : List Nested) :
    ∀ item ∈ items, motive item :=
  match items with
  | [] => fun _ hmem => absurd hmem List.not_mem_nil
  | item :: rest =>
    List.forall_mem_cons.mpr ⟨induction scalar array item, induction_items scalar array rest⟩

end

end Nested

/-! ## Layouts -/

/-- Texts of items, joined by commas and with blanks behind each comma. -/
inductive Joined (R : Nested → List Char → Prop) : List Nested → List Char → Prop where
  | one {item : Nested} {text : List Char} (h : R item text) : Joined R [item] text
  | more {item : Nested} {items : List Nested} {text gap body : List Char} (h : R item text)
      (hgap : ∀ c ∈ gap, isBlank c = true) (hbody : Joined R items body) :
      Joined R (item :: items) (text ++ ',' :: (gap ++ body))

/-- The texts of a value: blanks, line breaks among them, stand behind opening brackets and commas
    and before closing brackets. -/
inductive Layout : Nested → List Char → Prop where
  | scalar (x : Scalar) (plain : x.IsPlain) : Layout (.scalar x plain) x.literal
  | empty {gap : List Char} (hgap : ∀ c ∈ gap, isBlank c = true) :
      Layout (.array []) ('[' :: (gap ++ [']']))
  | array {items : List Nested} {front body back : List Char} (hfront : ∀ c ∈ front, isBlank c = true)
      (hbody : Joined Layout items body) (hback : ∀ c ∈ back, isBlank c = true) :
      Layout (.array items) ('[' :: (front ++ body ++ back ++ [']']))

/-- The literal is the layout without blanks. -/
theorem layout_literal (x : Nested) : Layout x x.literal := by
  have hempty : ∀ c ∈ ([] : List Char), isBlank c = true := fun _ hc => absurd hc List.not_mem_nil
  induction x using Nested.induction with
  | scalar x plain => exact .scalar x plain
  | array items ih =>
    have hjoined : items ≠ [] → Joined Layout items ([','].intercalate (Nested.literals items)) := by
      induction items with
      | nil => exact fun hne => absurd rfl hne
      | cons item rest ihRest =>
        rw [List.forall_mem_cons] at ih
        intro _
        cases rest with
        | nil =>
          rw [Nested.literals, Nested.literals, List.intercalate_singleton]
          exact .one ih.1
        | cons next others =>
          rw [Nested.literals, Nested.literals, List.intercalate_cons_cons, List.append_assoc,
            ← Nested.literals]
          exact .more ih.1 hempty (ihRest ih.2 (by simp))
    cases items with
    | nil => exact .empty hempty
    | cons item rest =>
      have hlayout := Layout.array hempty (hjoined (by simp)) hempty
      simpa [Nested.literal] using hlayout

/-! ## What layouts have in common -/

/-- A text that may stand among others between brackets, wherever lines break in it. -/
structure Holds (text : List Char) : Prop where
  solid : IsSolid text
  tidy : Scan.Tidy text
  balanced : Document.Balanced text

theorem isSolid_of_trim {text : List Char} (hne : text ≠ []) (htrim : trim text = text) :
    IsSolid text := by
  rcases blank_or_solid text with hblank | ⟨front, solid, back, rfl, hsolid, hfront, hback⟩
  · exact absurd (htrim.symm.trans (trim_of_blank hblank)) hne
  · rw [← htrim, hsolid.trim_margins hfront hback]
    exact hsolid

namespace Scalar

theorem isSolid_literal (x : Scalar) : IsSolid x.literal :=
  isSolid_of_trim x.literal_ne_nil x.trim_literal

theorem tidy_of_lower {word : List Char} (h : word.all (fun c => c.isLower && c != 'i') = true) :
    Scan.Tidy word := by
  refine Scan.tidy_of_forall fun c hc => ?_
  have hboth := List.all_eq_true.mp h c hc
  rw [Bool.and_eq_true, bne_iff_ne] at hboth
  have hdouble := ne_of_class (d := '"') hboth.1 rfl
  have hsingle := ne_of_class (d := '\'') hboth.1 rfl
  exact ⟨by simp [isQuote, hdouble, hsingle], ne_of_class hboth.1 rfl, hboth.2⟩

theorem tidy_literal {x : Scalar} (h : x.IsPlain) : Scan.Tidy x.literal := by
  cases x with
  | null => exact tidy_of_lower rfl
  | bool b => cases b <;> exact tidy_of_lower rfl
  | int n =>
    have hinteger := Number.isInteger_integerText n.toInt
    refine Scan.tidy_of_forall fun c hc => ?_
    have hdouble := ne_of_mem_integer (d := '"') hinteger hc rfl
    have hsingle := ne_of_mem_integer (d := '\'') hinteger hc rfl
    exact ⟨by simp [isQuote, hdouble, hsingle], ne_of_mem_integer hinteger hc rfl,
      ne_of_mem_integer hinteger hc rfl⟩
  | string s => exact Scan.tidy_quote h.2.2.1 h.2.2.2

theorem balanced_literal {x : Scalar} (h : x.IsPlain) : Document.Balanced x.literal := by
  cases x with
  | null => exact .of_not_mem (by decide) (by decide)
  | bool b => cases b <;> exact .of_not_mem (by decide) (by decide)
  | int n =>
    have hinteger := Number.isInteger_integerText n.toInt
    exact .of_not_mem (fun hmem => ne_of_mem_integer hinteger hmem rfl rfl)
      fun hmem => ne_of_mem_integer hinteger hmem rfl rfl
  | string s => exact .of_not_mem (not_mem_quote (by decide) h.1) (not_mem_quote (by decide) h.2.1)

theorem closed_literal {x : Scalar} (h : x.IsPlain) : Scan.Closed x.literal := by
  cases x with
  | null => exact closed_word rfl
  | bool b => exact closed_word rfl
  | int n => exact closed_integerText _
  | string s => exact Scan.closed_quote h.2.2.1

end Scalar

theorem tidy_singleton {c : Char} (hquote : isQuote c = false) (hslash : c ≠ '/') (hletter : c ≠ 'i') :
    Scan.Tidy [c] :=
  Scan.tidy_of_forall (List.forall_mem_singleton.mpr ⟨hquote, hslash, hletter⟩)

/-- Items that may stand between brackets may do so together. -/
theorem Joined.holds {R : Nested → List Char → Prop} {items : List Nested} {body : List Char}
    (h : Joined R items body)
    (hitems : ∀ item ∈ items, ∀ text, R item text → Holds text ∧ Scan.Closed text) :
    Holds body ∧ Scan.ClosedInside body := by
  induction h with
  | one h =>
    obtain ⟨hholds, hclosed⟩ := hitems _ List.mem_cons_self _ h
    exact ⟨hholds, hclosed.inside⟩
  | @more item items text gap body h hgap hbody ih =>
    rw [List.forall_mem_cons] at hitems
    obtain ⟨htext, hclosed⟩ := hitems.1 text h
    obtain ⟨hrest, hinside⟩ := ih hitems.2
    have hcomma : Scan.Tidy [','] := tidy_singleton rfl (by decide) (by decide)
    have hgapClosed : Scan.Closed gap := closed_of_blank hgap
    refine ⟨⟨?_, ?_, ?_⟩, hclosed.inside.comma (hgapClosed.inside.append hinside)⟩
    · exact htext.solid.append hrest.solid (',' :: gap)
    · exact htext.tidy.append (hcomma.append ((Scan.tidy_of_blank hgap).append hrest.tidy))
    · exact htext.balanced.append ((Document.Balanced.of_not_mem (by decide) (by decide) :
        Document.Balanced [',']).append ((Document.Balanced.of_blank hgap).append hrest.balanced))

/-- Brackets around what may stand between them. -/
theorem holds_bracketed {inner : List Char} (htidy : Scan.Tidy inner)
    (hbalanced : Document.Balanced inner) : Holds ('[' :: (inner ++ [']'])) where
  solid := isSolid_bracketed inner
  tidy := by
    have hopen : Scan.Tidy ['['] := tidy_singleton rfl (by decide) (by decide)
    have hclose : Scan.Tidy [']'] := tidy_singleton rfl (by decide) (by decide)
    exact hopen.append (htidy.append hclose)
  balanced := hbalanced.bracketed

/-- What stands between the brackets of an array. -/
theorem Layout.exists_inner {items : List Nested} {text : List Char} (h : Layout (.array items) text)
    (hitems : ∀ item ∈ items, ∀ text, Layout item text → Holds text ∧ Scan.Closed text) :
    ∃ inner, text = '[' :: (inner ++ [']']) ∧ Scan.Tidy inner ∧ Document.Balanced inner
      ∧ Scan.ClosedInside inner := by
  cases h with
  | @empty gap hgap =>
    have hclosed : Scan.Closed gap := closed_of_blank hgap
    exact ⟨gap, rfl, Scan.tidy_of_blank hgap, .of_blank hgap, hclosed.inside⟩
  | @array items front body back hfront hbody hback =>
    obtain ⟨hholds, hinside⟩ := hbody.holds hitems
    have hclosedFront : Scan.Closed front := closed_of_blank hfront
    have hclosedBack : Scan.Closed back := closed_of_blank hback
    exact ⟨front ++ body ++ back, rfl,
      ((Scan.tidy_of_blank hfront).append hholds.tidy).append (Scan.tidy_of_blank hback),
      ((Document.Balanced.of_blank hfront).append hholds.balanced).append (.of_blank hback),
      (hclosedFront.inside.append hinside).append hclosedBack.inside⟩

theorem Layout.holds {x : Nested} {text : List Char} (h : Layout x text) :
    Holds text ∧ Scan.Closed text := by
  induction x using Nested.induction generalizing text with
  | scalar x plain =>
    cases h with
    | scalar =>
      exact ⟨⟨x.isSolid_literal, Scalar.tidy_literal plain, Scalar.balanced_literal plain⟩,
        Scalar.closed_literal plain⟩
  | array items ih =>
    obtain ⟨inner, rfl, htidy, hbalanced, hinside⟩ := h.exists_inner fun item hitem _ => ih item hitem
    exact ⟨holds_bracketed htidy hbalanced, hinside.bracketed⟩

/-! ## Layouts on one line -/

/-- Joining the lines of the items joins those of each. -/
theorem Joined.joined {R : Nested → List Char → Prop} {items : List Nested} {body : List Char}
    (h : Joined R items body)
    (hitems : ∀ item ∈ items, ∀ text, R item text → IsSolid text ∧ R item (joinLines text)) :
    IsSolid body ∧ Joined R items (joinLines body) := by
  induction h with
  | one h =>
    obtain ⟨hsolid, hjoined⟩ := hitems _ List.mem_cons_self _ h
    exact ⟨hsolid, .one hjoined⟩
  | @more item items text gap body h hgap hbody ih =>
    rw [List.forall_mem_cons] at hitems
    obtain ⟨htext, hjoined⟩ := hitems.1 text h
    obtain ⟨hrest, hbodyJoined⟩ := ih hitems.2
    refine ⟨htext.append hrest (',' :: gap), ?_⟩
    have hbehind : joinLines (gap ++ body) = settleRun gap ++ joinLines body := by
      have hmargins := hrest.joinLines_margins hgap fun _ hc => absurd hc List.not_mem_nil
      simpa [settleRun] using hmargins
    rw [joinLines, joinLinesFrom_append_cons rfl, hbehind]
    exact .more hjoined (isBlank_of_mem_settleRun hgap) hbodyJoined

/-- Joined, a layout is another layout. -/
theorem Layout.joined {x : Nested} {text : List Char} (h : Layout x text) :
    Layout x (joinLines text) := by
  induction x using Nested.induction generalizing text with
  | scalar x plain =>
    cases h with
    | scalar =>
      rw [joinLines_of_not_mem x.newline_not_mem_literal]
      exact .scalar x plain
  | array items ih =>
    cases h with
    | @empty gap hgap =>
      rw [joinLines_bracketed, joinLines_of_blank hgap]
      exact .empty (isBlank_of_mem_settleRun hgap)
    | @array items front body back hfront hbody hback =>
      obtain ⟨hsolid, hjoined⟩ := hbody.joined fun item hitem text htext =>
        ⟨htext.holds.1.solid, ih item hitem htext⟩
      rw [joinLines_bracketed, hsolid.joinLines_margins hfront hback]
      exact .array (isBlank_of_mem_settleRun hfront) hjoined (isBlank_of_mem_settleRun hback)

/-! ## Values of layouts -/

/-- The items between brackets are found again, and resolved one after another. -/
theorem Joined.mapM_items {R : Nested → List Char → Prop} {items : List Nested} {body : List Char}
    (h : Joined R items body) {resolve : List Char → Except Fault Value}
    (hitems : ∀ item ∈ items, ∀ text, R item text →
      IsSolid text ∧ Scan.Closed text ∧ resolve text = .ok item.value)
    {gap : List Char} (hgap : ∀ c ∈ gap, isBlank c = true) :
    (((Scan.splitTopLevel ',' (gap ++ body)).map trim).filter (!·.isEmpty)).mapM resolve
      = .ok (Nested.values items) := by
  induction h generalizing gap with
  | @one item text h =>
    obtain ⟨hsolid, hclosed, hvalue⟩ := hitems _ List.mem_cons_self _ h
    have htrim : trim (gap ++ text) = text := by rw [trim_append_left hgap, hsolid.trim_eq]
    have hpiece := (closed_of_blank hgap).append hclosed
    rw [Scan.splitTopLevel_of_closed hpiece, List.map_singleton, htrim,
      List.filter_cons_of_pos (by simp [hsolid.ne_nil]), List.filter_nil, List.mapM_cons, hvalue]
    rfl
  | @more item items text gap' body h hgap' hbody ih =>
    rw [List.forall_mem_cons] at hitems
    obtain ⟨hsolid, hclosed, hvalue⟩ := hitems.1 text h
    have htrim : trim (gap ++ text) = text := by rw [trim_append_left hgap, hsolid.trim_eq]
    have hpiece := (closed_of_blank hgap).append hclosed
    rw [← List.append_assoc, Scan.splitTopLevel_append_comma hpiece,
      List.map_cons, htrim, List.filter_cons_of_pos (by simp [hsolid.ne_nil]), List.mapM_cons, hvalue,
      ih hitems.2 hgap']
    rfl

/-- In every layout a value resolves to itself. -/
theorem Layout.resolveBy_eq {x : Nested} {text : List Char} (h : Layout x text)
    (expression? : Option (List Char → Except Fault Value)) (scope : Scope) :
    scope.resolveBy expression? text = .ok x.value := by
  induction x using Nested.induction generalizing text with
  | scalar x plain =>
    cases h with
    | scalar => exact x.resolveBy_literal expression? scope
  | array items ih =>
    have hempty : ∀ c ∈ ([] : List Char), isBlank c = true := fun _ hc => absurd hc List.not_mem_nil
    cases h with
    | @empty gap hgap =>
      rw [Scope.resolveBy_bracketed (isSolid_bracketed gap).trim_eq, Scope.itemTexts_bracketed,
        ← joinLines_trim, trim_of_blank hgap]
      have hpieces : Scan.splitTopLevel ',' (joinLines []) = [[]] :=
        Scan.splitTopLevel_of_closed Scan.closed_nil
      rw [hpieces]
      rfl
    | @array items front body back hfront hbody hback =>
      obtain ⟨hsolid, hjoined⟩ := hbody.joined fun item hitem text htext =>
        ⟨htext.holds.1.solid, htext.joined⟩
      have hvalues := hjoined.mapM_items (fun item hitem text htext =>
        ⟨htext.holds.1.solid, htext.holds.2, ih item hitem htext⟩) hempty
      rw [Scope.resolveBy_bracketed (isSolid_bracketed _).trim_eq, Scope.itemTexts_bracketed,
        ← joinLines_trim, hsolid.trim_margins hfront hback, ← List.nil_append (joinLines body), hvalues]
      rfl

end ConfigLang
