import ConfigLang.Proofs.BetweenQuotes
import ConfigLang.Proofs.ResolvingRuns

set_option autoImplicit false

/-! # Suffixes of conversions

Behind any text a point and the name of a target are a conversion of what the text resolves to: no
text that ends in them describes a value by itself, and only a reference to a variable counts before
them. Main statement: suffixes convert one after another, from the left, up to the first fault, and
resolving the suffixed text comes to an end exactly if resolving the text does
(`Scope.resolve_suffixes`). -/

namespace ConfigLang

open Text

/-! ## Names of targets -/

namespace Target

def name : Target → List Char
  | .int => "int".toList
  | .float => "float".toList
  | .string => "string".toList
  | .bool => "bool".toList

/-- A point and the name of the target. -/
def suffix (target : Target) : List Char :=
  '.' :: target.name

theorem ofName?_name (target : Target) : ofName? target.name = some target := by
  cases target <;> rfl

theorem isLower_of_mem_name {target : Target} {c : Char} (h : c ∈ target.name) :
    c.isLower = true := by
  have hall : target.name.all Char.isLower = true := by cases target <;> rfl
  exact List.all_eq_true.mp hall c h

theorem exists_name_eq (target : Target) :
    ∃ front last, target.name = front ++ [last] ∧ last.isLower = true := by
  have hne : target.name ≠ [] := by cases target <;> exact List.cons_ne_nil _ _
  obtain ⟨front, last, hname⟩ := (List.eq_nil_or_concat target.name).resolve_left hne
  rw [List.concat_eq_append] at hname
  exact ⟨front, last, hname, isLower_of_mem_name (by rw [hname]; simp)⟩

/-- A letter that no numeral has. -/
theorem exists_mem_name (target : Target) :
    ∃ c ∈ target.name, Number.isNumeralChar c = false := by
  cases target with
  | int => exact ⟨'i', by decide, by decide⟩
  | float => exact ⟨'f', by decide, by decide⟩
  | string => exact ⟨'s', by decide, by decide⟩
  | bool => exact ⟨'b', by decide, by decide⟩

theorem not_mem_suffix {target : Target} {c : Char} (hc : (c.isLower || c == '.') = false) :
    c ∉ target.suffix := by
  rw [Bool.or_eq_false_iff, beq_eq_false_iff_ne] at hc
  rw [suffix, List.mem_cons, not_or]
  refine ⟨hc.2, fun hmem => ?_⟩
  rw [isLower_of_mem_name hmem] at hc
  exact absurd hc.1 (by decide)

end Target

/-! ## Texts before a suffix -/

namespace Text

theorem trimStart_append_cons {c : Char} (hc : isBlank c = false) (text rest : List Char) :
    trimStart (text ++ c :: rest) = trimStart text ++ c :: rest := by
  have hsplit : trimStart (text ++ c :: rest)
      = if (trimStart text).isEmpty then trimStart (c :: rest) else trimStart text ++ c :: rest :=
    List.dropWhile_append
  rw [hsplit, trimStart_cons_of_not_blank hc]
  split
  next hnil => rw [List.isEmpty_iff.mp hnil, List.nil_append]
  next => rfl

theorem trim_trimStart (text : List Char) : trim (trimStart text) = trim text := by
  have htext : text = text.takeWhile isBlank ++ trimStart text :=
    List.takeWhile_append_dropWhile.symm
  conv_rhs => rw [htext, trim_append_left (List.all_eq_true.mp List.all_takeWhile)]

end Text

/-- What stands behind a text completes no reference to a variable if it has no closing brace. -/
theorem Environment.reference?_append {text back : List Char} (hclose : '\x7d' ∉ back)
    (h : reference? text = none) : reference? (text ++ back) = none := by
  cases hname : reference? (text ++ back) with
  | none => rfl
  | some name =>
    obtain ⟨rest, heq, hname, hne⟩ := reference?_eq_some hname
    rw [← List.append_assoc] at heq
    rcases append_eq_append_cons heq with ⟨part, -, hback⟩ | ⟨part, htext, -⟩
    · exact absurd (by simp [hback]) hclose
    · rw [htext, List.append_assoc, reference?_eq hname hne] at h
      exact absurd h (by simp)

section

variable (text : List Char) (target : Target)

theorem trim_append_suffix :
    trim (text ++ target.suffix) = trimStart text ++ target.suffix := by
  obtain ⟨front, last, hname, hlast⟩ := target.exists_name_eq
  have hblank : isBlank last = false :=
    isBlank_of_isAlphanum (by simp [Char.isAlphanum, Char.isAlpha, hlast])
  have hpoint : isBlank '.' = false := rfl
  rw [trim, Target.suffix, trimStart_append_cons hpoint, hname, ← List.cons_append,
    ← List.append_assoc]
  exact trimEnd_concat_of_not_blank hblank _

theorem isLower_of_getLast?_append_suffix {c : Char}
    (hc : c ∈ (text ++ target.suffix).getLast?) : c.isLower = true := by
  obtain ⟨front, last, hname, hlower⟩ := target.exists_name_eq
  rw [Target.suffix, hname, ← List.cons_append, ← List.append_assoc, List.getLast?_concat] at hc
  rwa [← Option.some.inj hc]

/-- A suffixed text neither ends in a mark nor is a word or a number. -/
theorem isSimpleLiteral_append_suffix : isSimpleLiteral (text ++ target.suffix) = false := by
  have hmem : '.' ∈ trimStart text ++ target.suffix := by simp [Target.suffix]
  have hlast : ∀ {d : Char}, d.isLower = false →
      ∀ c ∈ (trimStart text ++ target.suffix).getLast?, c ≠ d :=
    fun hd c hc => ne_of_class (isLower_of_getLast?_append_suffix _ target hc) hd
  have hquoted : unquoted? (trimStart text ++ target.suffix) = none := by
    rw [unquoted?, between?_of_getLast?_ne (hlast rfl), between?_of_getLast?_ne (hlast rfl)]
  have hbracketed : isBracketed (trimStart text ++ target.suffix) = false := by
    rw [isBracketed, between?_of_getLast?_ne (hlast rfl)]
    rfl
  have hbraced : isBraced (trimStart text ++ target.suffix) = false := by
    rw [isBraced, between?_of_getLast?_ne (hlast rfl)]
    rfl
  have hword : wordValue? (trimStart text ++ target.suffix) = none :=
    wordValue?_of_mem (by decide) hmem
  have hfloat : Number.readFloat? (trimStart text ++ target.suffix) = none := by
    obtain ⟨c, hletter, hnumeral⟩ := target.exists_mem_name
    have hc : c ∈ trimStart text ++ target.suffix := by simp [Target.suffix, hletter]
    exact Number.readFloat?_of_mem hnumeral hc (by decide) (by decide) (by decide) hmem
  simp [isSimpleLiteral, trim_append_suffix, hquoted, hbracketed, hbraced, hword, hfloat]

theorem Scope.conversion?_append_suffix :
    conversion? (text ++ target.suffix) = some (text, target) := by
  have hpoint : '.' ∉ target.name := fun hmem =>
    absurd (Target.isLower_of_mem_name hmem) (by decide)
  rw [conversion?, Target.suffix, cutLast?_append_cons hpoint, Option.bind_some]
  dsimp only
  rw [target.ofName?_name, Option.map_some]

end

/-! ## Resolving -/

namespace Scope

variable {scope : Scope} {text : List Char} {outcome : Except Fault Value}

/-- A suffixed text is no reference to a variable either. -/
theorem reference?_trim_append_suffix (htext : Environment.reference? (trim text) = none)
    (target : Target) : Environment.reference? (trim (text ++ target.suffix)) = none := by
  obtain ⟨back, hback, hblank⟩ := exists_trimEnd_append (trimStart text)
  have hclose : '\x7d' ∉ back ++ target.suffix := by
    rw [List.mem_append, not_or]
    exact ⟨fun hmem => absurd (hblank _ hmem) (by decide), Target.not_mem_suffix rfl⟩
  rw [trim_append_suffix, hback, List.append_assoc]
  exact Environment.reference?_append hclose htext

/-- A suffix is read before anything else but a reference to a variable. -/
theorem rule_append_suffix (htext : Environment.reference? (trim text) = none) (target : Target) :
    scope.rule (trim (text ++ target.suffix)) = .conversion (trimStart text) target := by
  have hexpand : scope.env.expand? (trim (text ++ target.suffix)) = none := by
    rw [Environment.expand?, reference?_trim_append_suffix htext target, Option.map_none]
  rw [trim_append_suffix] at hexpand ⊢
  have hne : (trimStart text ++ target.suffix).isEmpty = false := by simp [Target.suffix]
  rw [rule, hne, hexpand, isSimpleLiteral_append_suffix, conversion?_append_suffix]
  rfl

theorem resolve_trimStart (scope : Scope) (text : List Char) :
    scope.resolve (trimStart text) = scope.resolve text := by
  rw [resolve_eq_rule, resolve_eq_rule scope text, trim_trimStart]

/-- Blanks before a text make no other run. -/
theorem run_trimStart_iff :
    scope.Run (.text (trimStart text)) outcome ↔ scope.Run (.text text) outcome := by
  have htrim : ∀ {raw other : List Char}, trim raw = trim other →
      scope.Run (.text raw) outcome → scope.Run (.text other) outcome := by
    intro raw other heq h
    cases h with
    | nothing hrule => exact .nothing (heq ▸ hrule)
    | expansion hrule => exact .expansion (heq ▸ hrule)
    | conversion hrule hbase => exact .conversion (heq ▸ hrule) hbase
    | expression hrule hexpr => exact .expression (heq ▸ hrule) (heq ▸ hexpr)
    | reference hrule => rw [heq] at hrule ⊢; exact .reference hrule
    | literal values hrule hitems => rw [heq] at hrule hitems ⊢; exact .literal values hrule hitems
  exact ⟨htrim (trim_trimStart text), htrim (trim_trimStart text).symm⟩

/-- A suffix converts what the text before it resolves to. -/
theorem resolve_suffix (scope : Scope) (htext : Environment.reference? (trim text) = none)
    (target : Target) :
    scope.resolve (text ++ target.suffix) = (scope.resolve text).bind (·.convert target) := by
  rw [resolve_eq_rule, rule_append_suffix htext]
  dsimp only
  rw [resolve_trimStart]
  rfl

theorem run_suffix_iff (htext : Environment.reference? (trim text) = none) (target : Target) :
    scope.Run (.text (text ++ target.suffix)) outcome
      ↔ ∃ before, scope.Run (.text text) before ∧ outcome = before.bind (·.convert target) := by
  have hrule : scope.rule (trim (text ++ target.suffix)) = .conversion (trimStart text) target :=
    rule_append_suffix htext target
  constructor
  · intro h
    cases h with
    | @conversion _ base other before hother hbase =>
      obtain ⟨rfl, rfl⟩ := Rule.conversion.inj (hother.symm.trans hrule)
      exact ⟨before, run_trimStart_iff.mp hbase, rfl⟩
    | nothing hother => exact absurd (hother.symm.trans hrule) (by simp)
    | expansion hother => exact absurd (hother.symm.trans hrule) (by simp)
    | expression hother hexpr => exact absurd (hother.symm.trans hrule) (by simp)
    | reference hother => exact absurd (hother.symm.trans hrule) (by simp)
    | literal values hother hitems => exact absurd (hother.symm.trans hrule) (by simp)
  · rintro ⟨before, hbefore, rfl⟩
    exact .conversion hrule (run_trimStart_iff.mpr hbefore)

/-- The first conversion goes before the others. -/
theorem bind_convert_cons (before : Except Fault Value) (target : Target) (rest : List Target) :
    (before.bind (·.convert target)).bind (fun v => rest.foldlM Value.convert v)
      = before.bind fun v => (target :: rest).foldlM Value.convert v := by
  cases before <;> rfl

theorem bind_convert_nil (before : Except Fault Value) :
    (before.bind fun v => [].foldlM Value.convert v) = before := by
  cases before <;> rfl

theorem resolve_append_suffixes (scope : Scope)
    (htext : Environment.reference? (trim text) = none) (targets : List Target) :
    scope.resolve (text ++ targets.flatMap Target.suffix)
      = (scope.resolve text).bind fun v => targets.foldlM Value.convert v := by
  induction targets generalizing text with
  | nil => rw [List.flatMap_nil, List.append_nil, bind_convert_nil]
  | cons target rest ih =>
    rw [List.flatMap_cons, ← List.append_assoc, ih (reference?_trim_append_suffix htext target),
      scope.resolve_suffix htext target, bind_convert_cons]

theorem run_append_suffixes_iff (htext : Environment.reference? (trim text) = none)
    (targets : List Target) :
    scope.Run (.text (text ++ targets.flatMap Target.suffix)) outcome
      ↔ ∃ before, scope.Run (.text text) before
        ∧ outcome = before.bind fun v => targets.foldlM Value.convert v := by
  induction targets generalizing text with
  | nil => simp only [List.flatMap_nil, List.append_nil, bind_convert_nil, exists_eq_right']
  | cons target rest ih =>
    rw [List.flatMap_cons, ← List.append_assoc, ih (reference?_trim_append_suffix htext target)]
    constructor
    · rintro ⟨middle, hmiddle, rfl⟩
      obtain ⟨before, hbefore, rfl⟩ := (run_suffix_iff htext target).mp hmiddle
      exact ⟨before, hbefore, bind_convert_cons before target rest⟩
    · rintro ⟨before, hbefore, rfl⟩
      exact ⟨_, (run_suffix_iff htext target).mpr ⟨before, hbefore, rfl⟩,
        (bind_convert_cons before target rest).symm⟩

/-- Behind a text that is no reference to a variable, suffixes convert what it resolves to, one after
    another up to the first fault. Without a bound on groups, the runs of the suffixed text are those
    of the text with the conversions behind them. -/
theorem resolve_suffixes (scope : Scope) (htext : Environment.reference? (trim text) = none)
    (targets : List Target) :
    scope.resolve (text ++ targets.flatMap Target.suffix)
        = (scope.resolve text >>= fun v => targets.foldlM Value.convert v)
      ∧ ∀ outcome, scope.Run (.text (text ++ targets.flatMap Target.suffix)) outcome
        ↔ ∃ before, scope.Run (.text text) before
          ∧ outcome = before >>= fun v => targets.foldlM Value.convert v :=
  ⟨scope.resolve_append_suffixes htext targets, fun _ => run_append_suffixes_iff htext targets⟩

/-- A quoted number through three targets, and a quoted word that is no integer. -/
theorem resolve_suffixes_quoted :
    let scope : Scope := {}
    scope.resolve "\"7\".int.bool.string".toList = .ok (.string "true")
      ∧ scope.resolve "\"up\".int.bool".toList = .error (.mistyped (.toInt (.string "up"))) := by
  intro scope
  have hresolve : ∀ inner : List Char, hasOperator ('"' :: (inner ++ ['"'])) = false →
      scope.resolve ('"' :: (inner ++ ['"'])) = .ok (.string (String.ofList (unescape inner))) :=
    fun inner hoperator => by
      rw [scope.resolve_of_between (between?_append_singleton _ _ inner), hoperator]
      rfl
  have hseven : scope.resolve "\"7\"".toList = .ok (.string "7") := hresolve ['7'] rfl
  have hup : scope.resolve "\"up\"".toList = .ok (.string "up") := hresolve ['u', 'p'] rfl
  have hnumber : Environment.reference? (trim "\"7\"".toList) = none := rfl
  have hword : Environment.reference? (trim "\"up\"".toList) = none := rfl
  refine ⟨(resolve_suffixes scope hnumber [.int, .bool, .string]).1.trans ?_,
    (resolve_suffixes scope hword [.int, .bool]).1.trans ?_⟩
  · rw [hseven]
    rfl
  · rw [hup]
    rfl

end Scope

end ConfigLang
