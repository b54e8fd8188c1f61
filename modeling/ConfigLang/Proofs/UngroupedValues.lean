import ConfigLang.Proofs.FloatReading
import ConfigLang.Proofs.Chain
import ConfigLang.Resolve

set_option autoImplicit false

/-! # Values that bring in no groups

The text of a value takes the place of a group, so a string or a key with an opening parenthesis may
bring in a new one. This file follows the values of which no string and no key has any
(`Value.Ungrouped`). Main statements: their texts have none
(`Value.Ungrouped.open_not_mem_groupText`), expressions and conversions stay among them
(`Value.Ungrouped.of_evaluateFlat`, `Value.Ungrouped.convert`), and a document that consists of them
gives out no others (`Scope.Ungrouped.resolveReference`). -/

namespace ConfigLang

/-! ## Strings and keys in a value -/

namespace Value

mutual

/-- The strings and the keys in a value. -/
def texts : Value → List String
  | .string s => [s]
  | .array items => itemTexts items
  | .object entries => entryTexts entries
  | _ => []

def itemTexts : List Value → List String
  | [] => []
  | item :: rest => item.texts ++ itemTexts rest

def entryTexts : List (String × Value) → List String
  | [] => []
  | (key, held) :: rest => key :: held.texts ++ entryTexts rest

end

/-- A value of which no string and no key has an opening parenthesis. -/
def Ungrouped (v : Value) : Prop :=
  ∀ s ∈ v.texts, '(' ∉ s.toList

instance (v : Value) : Decidable v.Ungrouped :=
  inferInstanceAs (Decidable (∀ s ∈ v.texts, '(' ∉ s.toList))

theorem ungrouped_of_texts {v : Value} (h : v.texts = []) : v.Ungrouped := by
  intro s hs
  rw [h] at hs
  exact absurd hs List.not_mem_nil

theorem ungrouped_string_iff {s : String} : (Value.string s).Ungrouped ↔ '(' ∉ s.toList := by
  rw [Ungrouped, texts, List.forall_mem_singleton]

theorem ungrouped_array_iff {items : List Value} :
    (Value.array items).Ungrouped ↔ ∀ item ∈ items, item.Ungrouped := by
  induction items with
  | nil => exact iff_of_true (ungrouped_of_texts rfl) (by simp)
  | cons item rest ih =>
    rw [Ungrouped, texts, itemTexts, List.forall_mem_append, List.forall_mem_cons, ← ih]
    rfl

theorem ungrouped_object_iff {entries : List (String × Value)} :
    (Value.object entries).Ungrouped
      ↔ ∀ pair ∈ entries, '(' ∉ pair.1.toList ∧ pair.2.Ungrouped := by
  induction entries with
  | nil => exact iff_of_true (ungrouped_of_texts rfl) (by simp)
  | cons pair rest ih =>
    obtain ⟨key, held⟩ := pair
    rw [Ungrouped, texts, entryTexts, List.cons_append, List.forall_mem_cons,
      List.forall_mem_append, List.forall_mem_cons, ← ih, and_assoc]
    rfl

end Value

/-! ## Texts of numbers -/

namespace Number

theorem isScalarChar_of_isDigit {c : Char} (h : c.isDigit = true) : Json.isScalarChar c = true := by
  simp [Json.isScalarChar, Char.isAlphanum, h]

/-- Integers and floats are written with letters, digits, signs and points. -/
theorem isScalarChar_of_mem_signText {negative : Bool} {c : Char} (h : c ∈ signText negative) :
    Json.isScalarChar c = true := by
  cases negative with
  | false => exact absurd h List.not_mem_nil
  | true =>
    rw [List.mem_singleton.mp h]
    rfl

theorem isScalarChar_of_mem_integerText {n : ℤ} {c : Char} (h : c ∈ integerText n) :
    Json.isScalarChar c = true := by
  rcases List.mem_append.mp h with hsign | hdigit
  · exact isScalarChar_of_mem_signText hsign
  · exact isScalarChar_of_isDigit (isDigit_of_mem_digitsOf hdigit)

theorem isScalarChar_of_mem_exponentText {plusSign : Bool} {digits : List Char} {e : ℤ} {c : Char}
    (hdigits : ∀ d ∈ digits, Json.isScalarChar d = true) (h : c ∈ exponentText plusSign digits e) :
    Json.isScalarChar c = true := by
  simp only [exponentText, List.mem_append, List.mem_cons] at h
  rcases h with ((hfirst | hfraction) | rfl | hsign) | hexponent
  · exact hdigits c (List.mem_of_mem_take hfirst)
  · split at hfraction
    · exact absurd hfraction List.not_mem_nil
    · rcases List.mem_cons.mp hfraction with rfl | hmem
      · rfl
      · exact hdigits c (List.mem_of_mem_drop hmem)
  · rfl
  · have hsigns : ['-', '+'].all Json.isScalarChar = true := rfl
    refine List.all_eq_true.mp hsigns c ?_
    split at hsign
    · exact List.mem_cons.mpr (Or.inl (List.mem_singleton.mp hsign))
    · split at hsign
      · exact List.mem_cons_of_mem _ hsign
      · exact absurd hsign List.not_mem_nil
  · exact isScalarChar_of_isDigit (isDigit_of_mem_digitsOf hexponent)

theorem isScalarChar_of_mem_floatText {form : FloatForm} {x : Float} {c : Char}
    (h : c ∈ floatText form x) : Json.isScalarChar c = true := by
  have hword : ∀ {word : List Char}, c ∈ word → word.all Json.isScalarChar = true →
      Json.isScalarChar c = true := fun hc hall => List.all_eq_true.mp hall c hc
  unfold floatText at h
  cases hparts : partsOf x with
  | nan =>
    rw [hparts] at h
    exact hword h rfl
  | infinite negative =>
    rw [hparts] at h
    rcases List.mem_append.mp h with hsign | hinf
    · exact isScalarChar_of_mem_signText hsign
    · exact hword hinf rfl
  | finite negative x =>
    rw [hparts] at h
    rcases List.mem_append.mp h with hsign | hmagnitude
    · exact isScalarChar_of_mem_signText hsign
    · unfold magnitudeText at hmagnitude
      split at hmagnitude
      · exact hword hmagnitude rfl
      · dsimp only at hmagnitude
        split at hmagnitude
        · obtain ⟨whole, fraction, htext, hwhole, hfraction, -⟩ := exists_positionalText
            (fun d hd => isDigit_of_mem_significantDigits hd) _
          rw [htext] at hmagnitude
          rcases isDigit_or_point_of_mem hwhole hfraction hmagnitude with hdigit | rfl
          · exact isScalarChar_of_isDigit hdigit
          · rfl
        · exact isScalarChar_of_mem_exponentText
            (fun d hd => isScalarChar_of_isDigit (isDigit_of_mem_significantDigits hd)) hmagnitude

end Number

/-! ## Texts of values -/

section

variable {text : List Char}

theorem open_not_mem_of_scalarChars (h : ∀ c ∈ text, Json.isScalarChar c = true) : '(' ∉ text :=
  fun hmem => absurd (h '(' hmem) (by decide)

/-- Escapes are written with a backslash and letters. -/
theorem open_not_mem_escapeChar {c : Char} (h : c ≠ '(') : '(' ∉ Text.escapeChar c := by
  unfold Text.escapeChar
  split
  case h_6 => exact fun hmem => h (List.mem_singleton.mp hmem).symm
  all_goals decide

theorem open_not_mem_quote (h : '(' ∉ text) : '(' ∉ Text.quote text := by
  simp only [Text.quote, Text.escape, List.cons_append, List.mem_cons, List.mem_append,
    List.mem_flatMap, List.not_mem_nil, or_false, not_or, not_exists, not_and]
  exact ⟨by decide, fun c hc => open_not_mem_escapeChar fun heq => h (heq ▸ hc), by decide⟩

theorem Text.open_not_mem_unescape (h : '(' ∉ text) : '(' ∉ unescape text := by
  fun_induction unescape text with
  | case1 => exact h
  | case2 => exact h
  | case3 d rest e hescaped ih =>
    rw [List.mem_cons, List.mem_cons, not_or, not_or] at h
    rw [List.mem_cons, not_or]
    refine ⟨?_, ih h.2.2⟩
    unfold escaped? at hescaped
    split at hescaped
    case h_7 => exact absurd hescaped (by simp)
    all_goals
      rw [← Option.some.inj hescaped]
      decide
  | case4 d rest hescaped ih =>
    rw [List.mem_cons, not_or] at h ⊢
    exact ⟨h.1, ih h.2⟩
  | case5 c d rest hne ih =>
    rw [List.mem_cons, not_or] at h ⊢
    exact ⟨h.1, ih h.2⟩

end

namespace Json

theorem digitChar_ne_open : ∀ n < 16, '(' ≠ Nat.digitChar n := by decide

theorem open_not_mem_escapeChar {c : Char} (h : c ≠ '(') : '(' ∉ escapeChar c := by
  unfold escapeChar
  split
  case h_8 =>
    split
    · have hhigh := digitChar_ne_open (c.toNat / 16) (by omega)
      have hlow := digitChar_ne_open (c.toNat % 16) (by omega)
      simp [hhigh, hlow]
    · exact fun hmem => h (List.mem_singleton.mp hmem).symm
  all_goals decide

theorem open_not_mem_writeString {s : String} (h : '(' ∉ s.toList) : '(' ∉ writeString s := by
  simp only [writeString, List.cons_append, List.mem_cons, List.mem_append, List.mem_flatMap,
    List.not_mem_nil, or_false, not_or, not_exists, not_and]
  exact ⟨by decide, fun c hc => open_not_mem_escapeChar fun heq => h (heq ▸ hc), by decide⟩

theorem open_not_mem_writeFloat (x : Float) : '(' ∉ writeFloat x := by
  unfold writeFloat
  split
  · exact open_not_mem_of_scalarChars fun c hc => Number.isScalarChar_of_mem_floatText hc
  · decide

theorem open_not_mem_intercalate {texts : List (List Char)} (h : ∀ text ∈ texts, '(' ∉ text) :
    '(' ∉ [','].intercalate texts := by
  intro hmem
  rcases Text.mem_intercalate hmem with heq | ⟨text, htext, hmem⟩
  · exact absurd heq (by decide)
  · exact h text htext hmem

mutual

theorem open_not_mem_write (v : Value) (h : v.Ungrouped) : '(' ∉ write v :=
  match v with
  | .null => by decide
  | .bool b => by cases b <;> decide
  | .int n => open_not_mem_of_scalarChars fun c hc => Number.isScalarChar_of_mem_integerText hc
  | .float x => open_not_mem_writeFloat x
  | .string s => open_not_mem_writeString (Value.ungrouped_string_iff.mp h)
  | .array items => by
    have hitems := open_not_mem_intercalate
      (open_not_mem_writeItems items (Value.ungrouped_array_iff.mp h))
    simp [write, hitems]
  | .object entries => by
    have hentries := open_not_mem_intercalate
      (open_not_mem_writeEntries entries (Value.ungrouped_object_iff.mp h))
    simp [write, hentries]

theorem open_not_mem_writeItems (items : List Value) (h : ∀ item ∈ items, item.Ungrouped) :
    ∀ text ∈ writeItems items, '(' ∉ text :=
  match items with
  | [] => fun _ hmem => absurd hmem List.not_mem_nil
  | item :: rest => by
    rw [List.forall_mem_cons] at h
    rw [writeItems, List.forall_mem_cons]
    exact ⟨open_not_mem_write item h.1, open_not_mem_writeItems rest h.2⟩

theorem open_not_mem_writeEntries (entries : List (String × Value))
    (h : ∀ pair ∈ entries, '(' ∉ pair.1.toList ∧ pair.2.Ungrouped) :
    ∀ text ∈ writeEntries entries, '(' ∉ text :=
  match entries with
  | [] => fun _ hmem => absurd hmem List.not_mem_nil
  | (key, held) :: rest => by
    rw [List.forall_mem_cons] at h
    rw [writeEntries, List.forall_mem_cons]
    refine ⟨?_, open_not_mem_writeEntries rest h.2⟩
    have hkey := open_not_mem_writeString h.1.1
    have hheld := open_not_mem_write held h.1.2
    simp [hkey, hheld]

end

end Json

namespace Value.Ungrouped

variable {v : Value}

theorem open_not_mem_text (h : v.Ungrouped) : '(' ∉ v.text := by
  cases v with
  | null => decide
  | bool b => cases b <;> decide
  | int n => exact open_not_mem_of_scalarChars fun c hc => Number.isScalarChar_of_mem_integerText hc
  | float x => exact open_not_mem_of_scalarChars fun c hc => Number.isScalarChar_of_mem_floatText hc
  | string s => exact ungrouped_string_iff.mp h
  | array items => exact Json.open_not_mem_write _ h
  | object entries => exact Json.open_not_mem_write _ h

/-- The text that takes the place of a group. -/
theorem open_not_mem_groupText (h : v.Ungrouped) : '(' ∉ Expr.groupText v := by
  cases v with
  | string s => exact open_not_mem_quote (ungrouped_string_iff.mp h)
  | float x => exact open_not_mem_of_scalarChars fun c hc => Number.isScalarChar_of_mem_floatText hc
  | _ => exact h.open_not_mem_text

theorem of_text {text : List Char} (h : '(' ∉ text) :
    (Value.string (String.ofList text)).Ungrouped := by
  rwa [ungrouped_string_iff, String.toList_ofList]

/-! ## Conversions -/

theorem convert {w : Value} {target : Target} (h : v.Ungrouped) (hw : v.convert target = .ok w) :
    w.Ungrouped := by
  cases target with
  | int | float =>
    unfold Value.convert at hw
    dsimp only at hw
    split at hw
    · rw [← Except.ok.inj hw]
      exact ungrouped_of_texts rfl
    · exact absurd hw (by simp)
  | string =>
    rw [← Except.ok.inj hw]
    exact of_text h.open_not_mem_text
  | bool =>
    unfold Value.convert at hw
    cases hb : v.toBool with
    | error f =>
      rw [hb] at hw
      exact absurd hw (by simp [Except.map])
    | ok b =>
      rw [hb] at hw
      rw [← Except.ok.inj hw]
      exact ungrouped_of_texts rfl

end Value.Ungrouped

/-! ## Expressions -/

namespace Expr.Chain

/-- A chain of values that all have a property. -/
structure Holds (P : Value → Prop) (chain : Chain) : Prop where
  first : P chain.first
  rest : ∀ pair ∈ chain.rest, P pair.2

variable {P : Value → Prop} {expr : List Char} {resolve : List Char → Except Fault Value}

theorem holds_behind {done : Option (Chain × Operator)} {v : Value}
    (hdone : ∀ begun ∈ done, begun.1.Holds P) (hv : P v) : (behind done ⟨v, []⟩).Holds P := by
  cases done with
  | none => exact ⟨hv, fun pair hpair => absurd hpair List.not_mem_nil⟩
  | some begun =>
    obtain ⟨hfirst, hrest⟩ := hdone begun rfl
    refine ⟨hfirst, fun pair hpair => ?_⟩
    rcases List.mem_append.mp hpair with hmem | hlast
    · exact hrest pair hmem
    · rw [List.mem_singleton.mp hlast]
      exact hv

/-- Reading gives a chain of values of operands, some with their signs changed. -/
theorem holds_of_read (hnegate : ∀ v w, P v → negate v = .ok w → P w) {tokens : List Token}
    (hoperand : ∀ text v, .operand text ∈ tokens → resolve text = .ok v → P v) :
    (∀ done negative c, (∀ begun ∈ done, begun.1.Holds P) →
        readOperand expr resolve done negative tokens = .ok c → c.Holds P)
      ∧ ∀ chain c, chain.Holds P → readOperator expr resolve chain tokens = .ok c → c.Holds P := by
  induction tokens with
  | nil =>
    refine ⟨?_, ?_⟩
    · intro done negative c hdone h
      cases done <;> exact absurd h (by simp [readOperand])
    · intro chain c hchain h
      rw [readOperator, Except.ok.injEq] at h
      exact h ▸ hchain
  | cons token tokens ih =>
    obtain ⟨ihOperand, ihOperator⟩ :=
      ih fun text v hmem => hoperand text v (List.mem_cons_of_mem _ hmem)
    cases token with
    | operator op =>
      refine ⟨?_, ?_⟩
      · intro done negative c hdone h
        rw [readOperand] at h
        split at h
        · exact ihOperand done _ c hdone h
        · exact absurd h (by simp)
      · intro chain c hchain h
        rw [readOperator] at h
        refine ihOperand _ _ c (fun begun hbegun => ?_) h
        rw [← Option.some.inj hbegun]
        exact hchain
    | operand text =>
      refine ⟨?_, ?_⟩
      · intro done negative c hdone h
        rw [readOperand_operand] at h
        obtain ⟨v, hv, hsign⟩ := exists_of_bind h
        obtain ⟨w, hw, hread⟩ := exists_of_bind hsign
        have hP := hoperand text v List.mem_cons_self hv
        refine ihOperator _ c (holds_behind hdone ?_) hread
        split at hw
        · exact hnegate v w hP hw
        · exact Except.ok.inj hw ▸ hP
      · intro chain c hchain h
        rw [readOperator] at h
        exact absurd h (by simp)

theorem holds_of_fold (happly : ∀ op a b v, P a → P b → apply op a b = .ok v → P v)
    {now : Operator → Bool} {acc : Value} {rest : List (Operator × Value)} {c : Chain}
    (hchain : Holds P ⟨acc, rest⟩) (h : fold now acc rest = .ok c) : c.Holds P := by
  induction rest generalizing acc c with
  | nil =>
    simp only [fold, Except.ok.injEq] at h
    exact h ▸ hchain
  | cons pair rest ih =>
    obtain ⟨op, v⟩ := pair
    obtain ⟨hfirst, hrest⟩ := hchain
    rw [List.forall_mem_cons] at hrest
    rcases fold_cons_cases h with ⟨-, w, hw, hfold⟩ | ⟨-, d, hfold, rfl⟩
    · exact ih ⟨happly op acc v w hfirst hrest.1 hw, hrest.2⟩ hfold
    · obtain ⟨hvalue, hmore⟩ := ih ⟨hrest.1, hrest.2⟩ hfold
      exact ⟨hfirst, List.forall_mem_cons.mpr ⟨hvalue, hmore⟩⟩

/-- What negation and the operators keep, an expression without groups keeps. -/
theorem holds_of_evaluateFlat (hnegate : ∀ v w, P v → negate v = .ok w → P w)
    (happly : ∀ op a b v, P a → P b → apply op a b = .ok v → P v)
    (hoperand : ∀ text v, .operand text ∈ Token.scan expr → resolve text = .ok v → P v) {v : Value}
    (h : evaluateFlat resolve expr = .ok v) : P v := by
  obtain ⟨c, hread, hvalue⟩ := exists_of_bind h
  obtain ⟨sum, total, hsum, htotal, rfl⟩ := exists_of_value hvalue
  have hchain : c.Holds P := (holds_of_read hnegate hoperand).1 none false c (by simp) hread
  exact (holds_of_fold happly (holds_of_fold happly hchain hsum) htotal).first

end Expr.Chain

namespace Value.Ungrouped

theorem ofNumeric (n : Expr.Numeric) : n.toValue.Ungrouped := by
  cases n <;> exact ungrouped_of_texts rfl

theorem negate {v w : Value} (h : Expr.negate v = .ok w) : w.Ungrouped := by
  unfold Expr.negate at h
  cases hn : Expr.Numeric.ofValue v with
  | error f =>
    rw [hn] at h
    exact absurd h (by simp [Except.map])
  | ok n =>
    rw [hn] at h
    rw [← Except.ok.inj h]
    exact ofNumeric _

theorem apply {op : Expr.Operator} {a b v : Value} (ha : a.Ungrouped) (hb : b.Ungrouped)
    (h : Expr.apply op a b = .ok v) : v.Ungrouped := by
  unfold Expr.apply at h
  split at h
  · rw [← Except.ok.inj h]
    refine of_text fun hmem => ?_
    rcases List.mem_append.mp hmem with hleft | hright
    · exact ha.open_not_mem_text hleft
    · exact hb.open_not_mem_text hright
  · obtain ⟨n, rfl⟩ := Expr.Chain.exists_toValue_of_compute h
    exact ofNumeric n

/-- The value of an expression brings in no group if no operand does. -/
theorem of_evaluateFlat {expr : List Char} {resolve : List Char → Except Fault Value} {v : Value}
    (hoperand : ∀ text v, .operand text ∈ Expr.Token.scan expr → resolve text = .ok v → v.Ungrouped)
    (h : Expr.evaluateFlat resolve expr = .ok v) : v.Ungrouped :=
  Expr.Chain.holds_of_evaluateFlat (fun _ _ _ hw => negate hw)
    (fun _ _ _ _ ha hb hv => apply ha hb hv) hoperand h

/-! ## Lookups -/

variable {v w : Value}

theorem lookup {entries : List (String × Value)} {key : String}
    (h : (Value.object entries).Ungrouped) (hv : entries.lookup key = some v) : v.Ungrouped := by
  obtain ⟨front, back, rfl, -⟩ := List.lookup_eq_some_iff.mp hv
  exact (ungrouped_object_iff.mp h (key, v) (by simp)).2

theorem at? {path : List String} (h : v.Ungrouped) (hw : v.at? path = some w) : w.Ungrouped := by
  induction path generalizing v with
  | nil => exact Option.some.inj hw ▸ h
  | cons key rest ih =>
    rw [Value.at?, Option.bind_eq_some_iff] at hw
    obtain ⟨inner, hinner, hw⟩ := hw
    obtain ⟨entries, hentries, hlookup⟩ := Option.bind_eq_some_iff.mp hinner
    cases v with
    | object held =>
      obtain rfl := Option.some.inj hentries
      exact ih (h.lookup hlookup) hw
    | _ => exact absurd hentries (by simp [entries?])

theorem access {accessor whole : List Char} (h : v.Ungrouped)
    (hw : v.access accessor whole = .ok w) : w.Ungrouped := by
  unfold Value.access at hw
  dsimp only at hw
  split at hw
  · split at hw
    · exact absurd hw (by simp)
    next items hitems =>
      split at hw
      next item hitem =>
        cases v with
        | array held =>
          obtain rfl := Option.some.inj hitems
          rw [← Except.ok.inj hw]
          exact ungrouped_array_iff.mp h item (List.mem_of_getElem? hitem)
        | _ => exact absurd hitems (by simp [items?])
      · exact absurd hw (by simp)
  · split at hw
    · exact absurd hw (by simp)
    next entries hentries =>
      split at hw
      next held hheld =>
        cases v with
        | object entries' =>
          obtain rfl := Option.some.inj hentries
          rw [← Except.ok.inj hw]
          exact h.lookup hheld
        | _ => exact absurd hentries (by simp [entries?])
      · exact absurd hw (by simp)

/-- One accessor after the other. -/
theorem foldlM_access {accessors : List (List Char)} {whole : List Char} (h : v.Ungrouped)
    (hw : accessors.foldlM (fun v accessor => v.access accessor whole) v = .ok w) :
    w.Ungrouped := by
  induction accessors generalizing v with
  | nil =>
    rw [List.foldlM_nil] at hw
    exact Except.ok.inj hw ▸ h
  | cons accessor rest ih =>
    rw [List.foldlM_cons] at hw
    obtain ⟨next, hnext, hw⟩ := exists_of_bind hw
    exact ih (h.access hnext) hw

end Value.Ungrouped

/-! ## Documents -/

/-- A scope where neither the tree nor the environment has an opening parenthesis to bring in. -/
structure Scope.Ungrouped (scope : Scope) : Prop where
  tree : scope.tree.toValue.Ungrouped
  env : ∀ name held, scope.env.get? name = some held → '(' ∉ held.toList

namespace Scope.Ungrouped

variable {scope : Scope} {v : Value}

theorem expand? (h : scope.Ungrouped) {text : List Char} (hv : scope.env.expand? text = some v) :
    v.Ungrouped := by
  obtain ⟨name, -, rfl⟩ := Option.map_eq_some_iff.mp hv
  cases hheld : scope.env.get? (String.ofList name) with
  | none => exact Value.ungrouped_of_texts rfl
  | some held => exact Value.ungrouped_string_iff.mpr (h.env _ held hheld)

theorem lookup (h : scope.Ungrouped) {path : List String} (hv : scope.tree.lookup path = some v) :
    v.Ungrouped := by
  cases path with
  | nil => exact absurd hv (by simp [Tree.lookup])
  | cons key rest =>
    obtain ⟨inner, hinner, hv⟩ := Option.bind_eq_some_iff.mp hv
    exact (h.tree.lookup hinner).at? hv

theorem lookupPath (h : scope.Ungrouped) {path : List Char} (hv : scope.lookupPath path = .ok v) :
    v.Ungrouped := by
  unfold Scope.lookupPath at hv
  split at hv
  next found hfound =>
    rw [← Except.ok.inj hv]
    unfold find? at hfound
    split at hfound
    next hroot =>
      rw [← Option.some.inj hfound]
      exact h.lookup hroot
    next =>
      split at hfound
      · exact absurd hfound (by simp)
      · exact h.lookup hfound
  next => exact absurd hv (by simp)

theorem resolveReference (h : scope.Ungrouped) {text : List Char}
    (hv : scope.resolveReference text = .ok v) : v.Ungrouped := by
  unfold Scope.resolveReference at hv
  split at hv
  · unfold resolveIndexed at hv
    split at hv
    · exact absurd hv (by simp)
    · obtain ⟨u, hu, hw⟩ := exists_of_bind hv
      exact (h.lookupPath hu).foldlM_access hw
  · exact h.lookupPath hv

end Scope.Ungrouped

end ConfigLang
