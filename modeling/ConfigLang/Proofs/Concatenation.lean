import ConfigLang.Proofs.BetweenQuotes
import ConfigLang.Proofs.GroupText

set_option autoImplicit false

/-! # Concatenated strings

Quoted strings with plus signs between them. Every scanner sees the plus signs outside quotes and
all of the strings inside, as long as each closing quote closes: the one behind a string that ends
in a backslash does not. Main statement: without parentheses in the strings the text gives their
concatenation exactly if no string but the last ends in a backslash
(`resolve_concatenation_iff`). -/

namespace ConfigLang

open Text

/-! ## The text -/

/-- Quoted strings with plus signs between them. -/
def concatenation (strings : List String) : List Char :=
  " + ".toList.intercalate (strings.map fun s => quote s.toList)

/-- The strings before another, each with its plus sign. -/
def addends (front : List String) : List Char :=
  front.flatMap fun s => quote s.toList ++ " + ".toList

theorem addends_cons (s : String) (front : List String) :
    addends (s :: front) = quote s.toList ++ (" + ".toList ++ addends front) := by
  simp [addends]

theorem concatenation_singleton (s : String) : concatenation [s] = quote s.toList := by
  simp [concatenation]

theorem concatenation_cons_cons (s next : String) (rest : List String) :
    concatenation (s :: next :: rest)
      = quote s.toList ++ " + ".toList ++ concatenation (next :: rest) := by
  simp [concatenation]

theorem concatenation_append (front : List String) (s : String) (rest : List String) :
    concatenation (front ++ s :: rest) = addends front ++ concatenation (s :: rest) := by
  induction front with
  | nil => rfl
  | cons t front ih =>
    obtain ⟨next, others, hnext⟩ : ∃ next others, front ++ s :: rest = next :: others :=
      List.exists_cons_of_ne_nil (by simp)
    rw [List.cons_append, hnext, concatenation_cons_cons, ← hnext, ih, addends_cons]
    simp only [List.append_assoc]

/-- What stands between the first and the last quote. -/
theorem between?_concatenation {strings : List String} (h : strings ≠ []) :
    between? '"' '"' (concatenation strings)
      = some ("\" + \"".toList.intercalate (strings.map fun s => escape s.toList)) := by
  have htext : concatenation strings
      = '"' :: ("\" + \"".toList.intercalate (strings.map fun s => escape s.toList) ++ ['"']) := by
    induction strings with
    | nil => exact absurd rfl h
    | cons s rest ih =>
      cases rest with
      | nil => simp [concatenation_singleton, quote]
      | cons next others =>
        rw [concatenation_cons_cons, ih (by simp)]
        simp [quote]
  rw [htext, between?_append_singleton]

theorem open_not_mem_concatenation {strings : List String} (h : ∀ s ∈ strings, '(' ∉ s.toList) :
    '(' ∉ concatenation strings := by
  induction strings with
  | nil => simp [concatenation]
  | cons s rest ih =>
    have hquote : '(' ∉ quote s.toList := not_mem_quote (by decide) (h s List.mem_cons_self)
    cases rest with
    | nil =>
      rw [concatenation_singleton]
      exact hquote
    | cons next others =>
      rw [concatenation_cons_cons, List.mem_append, List.mem_append, not_or, not_or]
      exact ⟨⟨hquote, by decide⟩, ih fun t ht => h t (List.mem_cons_of_mem _ ht)⟩

/-! ## Tokens -/

namespace Expr

open Token Scan

/-- The tokens of strings with a plus sign behind each. -/
def addendTokens (front : List String) : List Token :=
  front.flatMap fun s => [.operand (quote s.toList), .operator .add]

theorem scan_addends {front : List String} (h : ∀ s ∈ front, s.toList.getLast? ≠ some '\\')
    (rest : List Char) : scan (addends front ++ rest) = addendTokens front ++ scan rest := by
  induction front with
  | nil => rfl
  | cons s front ih =>
    have hspan := Quotes.span_scan_quote (s := {}) rfl (h s List.mem_cons_self)
    have hsplit : addends (s :: front) ++ rest
        = quote s.toList ++ ' ' :: '+' :: ' ' :: (addends front ++ rest) := by
      simp [addends_cons]
    have htokens : addendTokens (s :: front)
        = .operand (quote s.toList) :: .operator .add :: addendTokens front := rfl
    rw [hsplit, scan_append hspan (by simp [isDelimiter, isBlank]), scan_quote, scan_blank rfl,
      scan_operator (show Operator.ofChar? '+' = some .add from rfl), scan_blank rfl,
      ih fun t ht => h t (List.mem_cons_of_mem _ ht), htokens]
    rfl

namespace Chain

/-! ## Chains of strings -/

def addend (s : String) : Operator × Value :=
  (.add, .string s)

/-- The chain of strings with plus signs between them. -/
def ofStrings : List String → Chain
  | [] => ⟨.null, []⟩
  | s :: rest => ⟨.string s, rest.map addend⟩

theorem ofStrings_cons_concat (s : String) (front : List String) (last : String) :
    ofStrings (s :: (front ++ [last]))
      = ⟨.string s, (.add, (ofStrings (front ++ [last])).first)
          :: (ofStrings (front ++ [last])).rest⟩ := by
  cases front <;> rfl

/-- Strings with a plus sign behind each, and an operand that is a string, are read as a chain. -/
theorem readOperand_addends (expr : List Char) (scope : Scope) (front : List String)
    {text : List Char} {last : String} (hlast : scope.resolveOperand text = .ok (.string last))
    (done : Option (Chain × Operator)) (more : List Token) :
    readOperand expr scope.resolveOperand done false
        (addendTokens front ++ .operand text :: more)
      = readOperator expr scope.resolveOperand (behind done (ofStrings (front ++ [last])))
          more := by
  induction front generalizing done with
  | nil =>
    show readOperand _ _ _ _ (.operand text :: more) = _
    rw [readOperand_operand, hlast]
    rfl
  | cons s front ih =>
    show readOperand _ _ _ _ (.operand (quote s.toList) :: .operator .add
      :: (addendTokens front ++ .operand text :: more)) = _
    rw [readOperand_operand, resolveOperand_quote]
    show readOperator _ _ (behind done ⟨.string s, []⟩) (.operator .add :: _) = _
    rw [readOperator, ih, behind_behind, List.cons_append, ofStrings_cons_concat]
    rfl

/-! ## What chains of strings give -/

theorem fold_products_addends (v : Value) (strings : List String) :
    fold Operator.isMultiplicative v (strings.map addend) = .ok ⟨v, strings.map addend⟩ := by
  induction strings generalizing v with
  | nil => rfl
  | cons s rest ih => exact fold_cons_of_not_now rfl (ih (.string s))

/-- Adding strings to a string joins them. -/
theorem fold_sum_addends (s : String) (strings : List String) (more : List (Operator × Value)) :
    fold (!Operator.isMultiplicative ·) (.string s) (strings.map addend ++ more)
      = fold (!Operator.isMultiplicative ·) (.string (s ++ String.join strings)) more := by
  induction strings generalizing s with
  | nil => simp
  | cons t rest ih =>
    have happly : apply .add (.string s) (.string t) = .ok (.string (s ++ t)) := by
      simp [apply, isString, Value.text, String.ofList_append]
    rw [List.map_cons, List.cons_append, addend, fold_cons_of_now rfl happly, ih,
      String.join_cons, String.append_assoc]

theorem value_ofStrings {strings : List String} (h : strings ≠ []) :
    (ofStrings strings).value = .ok (.string (String.join strings)) := by
  cases strings with
  | nil => exact absurd rfl h
  | cons s rest =>
    have hsum := fold_sum_addends s rest []
    rw [List.append_nil] at hsum
    rw [value, ofStrings, fold_products_addends]
    show (fold _ (.string s) (rest.map addend) >>= _) = _
    rw [hsum, String.join_cons]
    rfl

end Chain

end Expr

/-! ## Concatenations whose quotes close -/

namespace Scan

theorem Quotes.span_scan_addends {s : Quotes} (hs : s.span? = none) {front : List String}
    (h : ∀ t ∈ front, t.toList.getLast? ≠ some '\\') : (s.scan (addends front)).span? = none := by
  induction front generalizing s with
  | nil => exact hs
  | cons t front ih =>
    have hquote := span_scan_quote hs (h t List.mem_cons_self)
    have hplus : ((s.scan (quote t.toList)).scan " + ".toList).span? = none :=
      span_scan_of_not_quote hquote (by simp [isQuote])
    rw [addends_cons, scan_append, scan_append]
    exact ih hplus fun u hu => h u (List.mem_cons_of_mem _ hu)

/-- Between strings whose quotes close only blanks and plus signs stand outside quotes. -/
theorem cutWhen?_addends {s : Quotes} (hs : s.span? = none) {front : List String}
    (h : ∀ t ∈ front, t.toList.getLast? ≠ some '\\') {p : Char → Bool}
    (hp : ∀ c ∈ " + ".toList, p c = false) :
    cutWhen? Quotes.step (fun s c => s.outside c && p c) s (addends front) = none := by
  induction front generalizing s with
  | nil => rfl
  | cons t front ih =>
    have hquote := Quotes.span_scan_quote hs (h t List.mem_cons_self)
    have hplus : ((s.scan (quote t.toList)).scan " + ".toList).span? = none :=
      Quotes.span_scan_of_not_quote hquote (by simp [isQuote])
    rw [addends_cons, cutWhen?_scan (cutWhen?_of_hides (Quotes.hides_quote hs t.toList) p),
      cutWhen?_scan (cutWhen?_eq_none_of_forall hp _),
      ih hplus fun u hu => h u (List.mem_cons_of_mem _ hu)]
    rfl

end Scan

theorem hasOperator_concatenation {s : String} (h : s.toList.getLast? ≠ some '\\')
    (next : String) (rest : List String) :
    hasOperator (concatenation (s :: next :: rest)) = true := by
  have hspan := Scan.Quotes.span_scan_quote (s := {}) rfl h
  have hsplit : concatenation (s :: next :: rest)
      = quote s.toList ++ ' ' :: '+' :: ' ' :: concatenation (next :: rest) := by
    simp [concatenation_cons_cons]
  have hfound : ∀ t : Scan.Quotes, t.span? = none → ∀ more,
      Scan.cutWhen? Scan.Quotes.step (fun s c => s.outside c && isOperator c) t (' ' :: '+' :: more)
        = some ([' '], more) := by
    intro t ht more
    have hblank : (t.step ' ').span? = none := Scan.Quotes.span_step_of_not_quote ht rfl
    have hplus : (t.step ' ').outside '+' = true := Scan.Quotes.outside_of_not_quote hblank rfl
    simp [Scan.cutWhen?, hplus, show isOperator ' ' = false from rfl,
      show isOperator '+' = true from rfl]
  rw [hasOperator, Scan.cutUnquoted?, hsplit,
    Scan.cutWhen?_scan (Scan.cutWhen?_of_hides (Scan.Quotes.hides_quote rfl s.toList) _),
    hfound _ hspan]
  rfl

theorem concatenation_concat (front : List String) (last : String) :
    concatenation (front ++ [last]) = addends front ++ quote last.toList := by
  rw [concatenation_append, concatenation_singleton]

theorem resolve_concatenation (scope : Scope) {front : List String} {last : String}
    (hne : front ≠ []) (hopen : ∀ s ∈ front ++ [last], '(' ∉ s.toList)
    (h : ∀ s ∈ front, s.toList.getLast? ≠ some '\\') :
    scope.resolve (concatenation (front ++ [last]))
      = .ok (.string (String.join (front ++ [last]))) := by
  have hoperator : hasOperator (concatenation (front ++ [last])) = true := by
    obtain ⟨s, others, rfl⟩ := List.exists_cons_of_ne_nil hne
    obtain ⟨next, rest, hrest⟩ : ∃ next rest, others ++ [last] = next :: rest :=
      List.exists_cons_of_ne_nil (by simp)
    rw [List.cons_append, hrest]
    exact hasOperator_concatenation (h s List.mem_cons_self) next rest
  have hclose : Scan.cutUnquoted? (· == ')') (concatenation (front ++ [last])) = none := by
    have hspan := Scan.Quotes.span_scan_addends (s := {}) rfl h
    rw [Scan.cutUnquoted?, concatenation_concat,
      Scan.cutWhen?_scan (Scan.cutWhen?_addends rfl h (by simp)),
      Scan.cutWhen?_of_hides (Scan.Quotes.hides_quote hspan _)]
    rfl
  have hscan : Expr.Token.scan (concatenation (front ++ [last]))
      = Expr.addendTokens front ++ [.operand (quote last.toList)] := by
    rw [concatenation_concat, Expr.scan_addends h, Expr.Token.scan_quote]
  rw [scope.resolve_of_between (between?_concatenation (by simp)), if_pos hoperator,
    scope.evaluateExpression_of_no_group (open_not_mem_concatenation hopen), hclose,
    Expr.evaluateFlat, Expr.Chain.read, hscan,
    Expr.Chain.readOperand_addends _ _ _ (Expr.resolveOperand_quote scope last)]
  exact Expr.Chain.value_ofStrings (by simp)

/-! ## Concatenations with a quote that does not close -/

namespace Expr

open Token Scan

/-- Behind a string that ends in a backslash the next quote closes. -/
theorem scan_quote_open {text : List Char} (h : text.getLast? = some '\\') (tail : List Char) :
    scan (quote text ++ " + \"".toList ++ tail)
      = .operand (quote text ++ " + \"".toList) :: scan tail := by
  obtain ⟨hspan, hlast⟩ := Quotes.string_before_close (s := {}) rfl text
  have hsplit : quote text ++ " + \"".toList ++ tail
      = '"' :: (escape text ++ '"' :: (" + ".toList ++ '"' :: tail)) := by
    simp [quote]
  have hstart : scan ('"' :: (escape text ++ '"' :: (" + ".toList ++ '"' :: tail)))
      = scanFrom ((({} : Quotes).step '"').scan (escape text)) ((escape text).reverse ++ ['"'])
          ('"' :: (" + ".toList ++ '"' :: tail)) := by
    rw [← scanFrom_escape rfl]
    rfl
  generalize (({} : Quotes).step '"').scan (escape text) = t at hspan hlast hstart
  have hopen := Quotes.span_step_of_escaped hspan (hlast.mpr h) '"'
  have hinside := (Quotes.hides_in_span hopen (show '"' ∉ " + ".toList by decide)).2
  have hclosing : ((t.step '"').scan " + ".toList).last? ≠ some '\\' := by
    rw [Quotes.last_scan, Quotes.last_step]
    decide
  have hcloses : ((t.step '"').scan " + ".toList).closes '"' '"' = true := by
    rw [Quotes.closes, Bool.and_eq_true, bne_iff_ne]
    exact ⟨rfl, hclosing⟩
  rw [hsplit, hstart, scanFrom_of_open hspan (Quotes.closes_of_escaped (hlast.mpr h) '"' '"'),
    scanFrom_in_span hopen (by decide), scanFrom, hinside]
  dsimp only
  rw [if_pos hcloses,
    scanFrom_of_span_none (t := {}) (Quotes.span_step_of_closing hinside hclosing) rfl]
  simp [quote, scan]

theorem scan_escape_operand {text : List Char} (h : text.head?.all (· == '"') = true)
    (more : List Char) :
    ∃ operand tokens, scan (escape text ++ '"' :: more) = .operand operand :: tokens := by
  cases text with
  | nil => exact scanFrom_gathering (({} : Quotes).step '"') List.mem_cons_self rfl more
  | cons c rest =>
    obtain rfl : c = '"' := by simpa using h
    -- the escape of the quote begins an operand, and the quote itself the next one
    exact ⟨_, _, rfl⟩

theorem resolveOperand_open (scope : Scope) {s : String} (h : s.toList.getLast? = some '\\') :
    scope.resolveOperand (quote s.toList ++ " + \"".toList) = .ok (.string (s ++ "\" + ")) := by
  have hbetween : between? '"' '"' (quote s.toList ++ " + \"".toList)
      = some (escape s.toList ++ "\" + ".toList) := by
    have hsplit : quote s.toList ++ " + \"".toList
        = '"' :: ((escape s.toList ++ "\" + ".toList) ++ ['"']) := by
      simp [quote]
    rw [hsplit, between?_append_singleton]
  have hoperator : hasOperator (quote s.toList ++ " + \"".toList) = false := by
    have hspan := Quotes.span_scan_quote_open (s := {}) rfl h
    have hhides : (({} : Quotes).scan (quote s.toList)).hides (" + ".toList ++ ['"']) = true := by
      obtain ⟨hinside, hopen⟩ := Quotes.hides_in_span hspan (show '"' ∉ " + ".toList by decide)
      rw [Quotes.hides_append, hinside, Quotes.hides, Quotes.outside_of_span hopen]
      rfl
    have hwhole : ({} : Quotes).hides (quote s.toList ++ " + \"".toList) = true := by
      rw [Quotes.hides_append, Quotes.hides_quote rfl]
      exact hhides
    rw [hasOperator, cutUnquoted?, cutWhen?_of_hides hwhole]
    rfl
  have hsimple : isSimpleLiteral (quote s.toList ++ " + \"".toList) = true := by
    rw [isSimpleLiteral_of_between hbetween, hoperator]
    rfl
  have hvalue : String.ofList (unescape (escape s.toList ++ "\" + ".toList)) = s ++ "\" + " := by
    have hlast : unescape "\" + ".toList = "\" + ".toList := by simp [unescape]
    rw [unescape_escape_append, hlast, String.ofList_append, String.ofList_toList,
      String.ofList_toList]
  rw [scope.resolveOperand_of_simple hsimple, ofText_of_between hbetween, hvalue]
  rfl

namespace Chain

/-- Products leave the strings that are added, of which the last has a quote, as they are. -/
theorem fold_products_ofStrings {front : List String} {last : String} (hquote : '"' ∈ last.toList)
    {more : List (Operator × Value)} {c : Chain}
    (h : fold Operator.isMultiplicative (ofStrings (front ++ [last])).first
      ((ofStrings (front ++ [last])).rest ++ more) = .ok c) :
    ∃ more',
      c = ⟨(ofStrings (front ++ [last])).first, (ofStrings (front ++ [last])).rest ++ more'⟩ := by
  induction front generalizing c with
  | nil =>
    cases more with
    | nil => exact ⟨[], (Except.ok.inj h).symm⟩
    | cons pair more =>
      rcases fold_cons_cases h with ⟨hop, w, happly, -⟩ | ⟨-, d, -, rfl⟩
      · rw [(apply_of_quote_mem hquote happly).1] at hop
        exact absurd hop (by decide)
      · exact ⟨_, rfl⟩
  | cons s front ih =>
    rw [List.cons_append, ofStrings_cons_concat] at h ⊢
    rcases fold_cons_cases h with ⟨hop, -⟩ | ⟨-, d, hfold, rfl⟩
    · exact absurd hop (by decide)
    · obtain ⟨more', rfl⟩ := ih hfold
      exact ⟨more', rfl⟩

/-- A sum that begins with a string with a quote begins with that string. -/
theorem prefix_of_fold_sum {s : String} (hquote : '"' ∈ s.toList) {rest : List (Operator × Value)}
    {c : Chain} (h : fold (!Operator.isMultiplicative ·) (.string s) rest = .ok c) :
    ∃ t : String, c.first = .string t ∧ s.toList <+: t.toList := by
  induction rest generalizing s c with
  | nil =>
    rw [← Except.ok.inj h]
    exact ⟨s, rfl, List.prefix_refl _⟩
  | cons pair rest ih =>
    rcases fold_cons_cases h with ⟨-, w, happly, hfold⟩ | ⟨-, d, -, rfl⟩
    · obtain ⟨-, rfl⟩ := apply_of_quote_mem hquote happly
      have hlonger : s.toList <+: (s ++ String.ofList pair.2.text).toList := by
        rw [String.toList_append]
        exact List.prefix_append _ _
      obtain ⟨t, ht, hprefix⟩ := ih (hlonger.subset hquote) hfold
      exact ⟨t, ht, hlonger.trans hprefix⟩
    · exact ⟨s, rfl, List.prefix_refl _⟩

/-- A chain of added strings, of which the last has a quote, gives a string that begins with
    them. -/
theorem prefix_of_value {front : List String} {last : String} (hquote : '"' ∈ last.toList)
    {more : List (Operator × Value)} {v : Value}
    (h : value ⟨(ofStrings (front ++ [last])).first, (ofStrings (front ++ [last])).rest ++ more⟩
      = .ok v) :
    ∃ t : String, v = .string t ∧ (String.join (front ++ [last])).toList <+: t.toList := by
  obtain ⟨sum, total, hproducts, hsum, rfl⟩ := exists_of_value h
  obtain ⟨more', rfl⟩ := fold_products_ofStrings hquote hproducts
  have hjoined : '"' ∈ (String.join (front ++ [last])).toList := by
    rw [String.toList_join, List.mem_flatMap]
    exact ⟨last, by simp, hquote⟩
  obtain ⟨s, rest, hstrings⟩ : ∃ s rest, front ++ [last] = s :: rest :=
    List.exists_cons_of_ne_nil (by simp)
  rw [hstrings, String.join_cons] at hjoined ⊢
  rw [hstrings, ofStrings] at hsum
  dsimp only at hsum
  rw [fold_sum_addends] at hsum
  exact prefix_of_fold_sum hjoined hsum

end Chain

end Expr

/-! ## All concatenations -/

theorem unescape_intercalate (strings : List String) :
    unescape ("\" + \"".toList.intercalate (strings.map fun s => escape s.toList))
      = "\" + \"".toList.intercalate (strings.map String.toList) := by
  induction strings with
  | nil => rfl
  | cons s rest ih =>
    cases rest with
    | nil => simp [unescape_escape]
    | cons next others =>
      have hmiddle : ∀ more,
          unescape ("\" + \"".toList ++ more) = "\" + \"".toList ++ unescape more := by
        intro more
        simp [unescape_cons_of_ne]
      have hsplit : ∀ f : String → List Char,
          "\" + \"".toList.intercalate ((s :: next :: others).map f)
          = f s ++ ("\" + \"".toList ++ "\" + \"".toList.intercalate ((next :: others).map f)) := by
        intro f
        simp [List.intercalate_cons_cons]
      rw [hsplit, hsplit, unescape_escape_append, hmiddle, ih]

theorem length_intercalate_cons (s : String) (rest : List String) :
    ("\" + \"".toList.intercalate ((s :: rest).map String.toList)).length
      = ((s :: rest).flatMap String.toList).length + 5 * rest.length := by
  induction rest generalizing s with
  | nil => simp
  | cons next others ih =>
    have hrest := ih next
    simp only [List.map_cons, List.flatMap_cons, List.intercalate_cons_cons, List.length_append,
      List.length_cons] at hrest ⊢
    rw [hrest]
    simp
    omega

theorem exists_concatenation (s : String) (rest : List String) :
    ∃ more, concatenation (s :: rest) = '"' :: (escape s.toList ++ '"' :: more) := by
  cases rest with
  | nil => exact ⟨[], by simp [concatenation_singleton, quote]⟩
  | cons next others =>
    exact ⟨" + ".toList ++ concatenation (next :: others), by simp [concatenation_cons_cons, quote]⟩

/-- A string that ends in a backslash keeps the strings behind it from being added. -/
theorem evaluateFlat_concatenation_ne (scope : Scope) {front : List String} {s next : String}
    {rest : List String} (hfront : ∀ t ∈ front, t.toList.getLast? ≠ some '\\')
    (hs : s.toList.getLast? = some '\\') :
    Expr.evaluateFlat scope.resolveOperand (concatenation (front ++ s :: next :: rest))
      ≠ .ok (.string (String.join (front ++ s :: next :: rest))) := by
  intro heval
  obtain ⟨more, hmore⟩ := exists_concatenation next rest
  have hscan : Expr.Token.scan (concatenation (front ++ s :: next :: rest))
      = Expr.addendTokens front ++ .operand (quote s.toList ++ " + \"".toList)
          :: Expr.Token.scan (escape next.toList ++ '"' :: more) := by
    have hsplit : concatenation (s :: next :: rest)
        = quote s.toList ++ " + \"".toList ++ (escape next.toList ++ '"' :: more) := by
      rw [concatenation_cons_cons, hmore]
      simp
    rw [concatenation_append, Expr.scan_addends hfront, hsplit, Expr.scan_quote_open hs]
  rw [Expr.evaluateFlat, Expr.Chain.read, hscan,
    Expr.Chain.readOperand_addends _ _ _ (Expr.resolveOperand_open scope hs)] at heval
  cases hread : Expr.Chain.readOperator (concatenation (front ++ s :: next :: rest))
      scope.resolveOperand (Expr.Chain.ofStrings (front ++ [s ++ "\" + "]))
      (Expr.Token.scan (escape next.toList ++ '"' :: more)) with
  | error f =>
    simp only [Expr.Chain.behind, hread, bind, Except.bind] at heval
    exact absurd heval (by simp)
  | ok c =>
    simp only [Expr.Chain.behind, hread, bind, Except.bind] at heval
    obtain ⟨more', rfl⟩ := (Expr.Chain.read_extends _).2 _ c hread
    obtain ⟨t, ht, hprefix⟩ := Expr.Chain.prefix_of_value (by simp) heval
    obtain rfl := Value.string.inj ht
    -- what is joined would go on with a quote, but then an operand would follow
    have hnext : next.toList.head?.all (· == '"') = true := by
      simp only [String.toList_join, List.flatMap_append, List.flatMap_cons, List.flatMap_nil,
        String.toList_append, List.append_nil, List.prefix_append_right_inj] at hprefix
      cases hchars : next.toList with
      | nil => rfl
      | cons c tail =>
        rw [hchars] at hprefix
        have hc : '"' = c := (List.cons_prefix_cons.mp hprefix).1
        simp [← hc]
    obtain ⟨operand, tokens, htail⟩ := Expr.scan_escape_operand hnext more
    rw [htail, Expr.Chain.readOperator] at hread
    exact absurd hread (by simp)

theorem resolve_concatenation_ne (scope : Scope) {front : List String} {s next : String}
    {rest : List String} (hopen : ∀ t ∈ front ++ s :: next :: rest, '(' ∉ t.toList)
    (hfront : ∀ t ∈ front, t.toList.getLast? ≠ some '\\') (hs : s.toList.getLast? = some '\\') :
    scope.resolve (concatenation (front ++ s :: next :: rest))
      ≠ .ok (.string (String.join (front ++ s :: next :: rest))) := by
  intro hresolve
  rw [scope.resolve_of_between (between?_concatenation (by simp))] at hresolve
  split at hresolve
  · rw [scope.evaluateExpression_of_no_group (open_not_mem_concatenation hopen)] at hresolve
    split at hresolve
    · exact absurd hresolve (by simp)
    · exact evaluateFlat_concatenation_ne scope hfront hs hresolve
  · -- the quotes and plus signs are part of the string
    rw [unescape_intercalate, Except.ok.injEq, Value.string.injEq] at hresolve
    obtain ⟨first, others, hstrings⟩ :
        ∃ first others, front ++ s :: next :: rest = first :: others :=
      List.exists_cons_of_ne_nil (by simp)
    have hothers : 0 < others.length := by
      have htotal := congrArg List.length hstrings
      simp only [List.length_append, List.length_cons] at htotal
      omega
    have hlength := congrArg (List.length ∘ String.toList) hresolve
    simp only [Function.comp_apply, String.toList_ofList, String.toList_join, hstrings,
      length_intercalate_cons] at hlength
    omega

/-- Quoted strings without opening parentheses, with plus signs between them, give the concatenation
    of the strings exactly if none but the last ends in a backslash. -/
theorem resolve_concatenation_iff (scope : Scope) {strings : List String}
    (htwo : 2 ≤ strings.length) (hopen : ∀ s ∈ strings, '(' ∉ s.toList) :
    scope.resolve (concatenation strings) = .ok (.string (String.join strings))
      ↔ ∀ s ∈ strings.dropLast, s.toList.getLast? ≠ some '\\' := by
  obtain ⟨front, last, rfl⟩ : ∃ front last, strings = front ++ [last] := by
    rcases List.eq_nil_or_concat strings with rfl | ⟨front, last, rfl⟩
    · exact absurd htwo (by decide)
    · exact ⟨front, last, List.concat_eq_append⟩
  have hne : front ≠ [] := by
    rintro rfl
    exact absurd htwo (by simp)
  rw [List.dropLast_concat]
  refine ⟨fun hresolve => ?_, resolve_concatenation scope hne hopen⟩
  by_contra hends
  -- the first string that ends in a backslash, and the one behind it
  obtain ⟨s, hfind⟩ : ∃ s, front.find? (·.toList.getLast? == some '\\') = some s := by
    rw [← Option.isSome_iff_exists, List.find?_isSome]
    simpa using hends
  obtain ⟨hs, before, rest, rfl, hbefore⟩ := List.find?_eq_some_iff_append.mp hfind
  obtain ⟨next, others, hnext⟩ : ∃ next others, rest ++ [last] = next :: others :=
    List.exists_cons_of_ne_nil (by simp)
  have hstrings : before ++ s :: rest ++ [last] = before ++ s :: next :: others := by
    rw [List.append_assoc, List.cons_append, hnext]
  rw [hstrings] at hopen hresolve
  exact resolve_concatenation_ne scope hopen (by simpa using hbefore) (by simpa using hs) hresolve

/-- Strings of quotes, operators, brackets, a closing parenthesis and points, the last one with a
    backslash at its end. -/
theorem resolve_concatenation_marks :
    2 ≤ ["\"a\" + ", ") // '", ".int", "[$ENV\x7bx\x7d] \\"].length
      ∧ (∀ s ∈ ["\"a\" + ", ") // '", ".int", "[$ENV\x7bx\x7d] \\"], '(' ∉ s.toList)
      ∧ ({} : Scope).resolve (concatenation ["\"a\" + ", ") // '", ".int", "[$ENV\x7bx\x7d] \\"])
        = .ok (.string "\"a\" + ) // '.int[$ENV\x7bx\x7d] \\") := by
  refine ⟨by decide, by decide, ?_⟩
  rw [(resolve_concatenation_iff {} (by decide) (by decide)).mpr (by decide)]
  rfl

/-- A string that ends in a backslash runs into the next one, and an opening parenthesis in a string
    is taken for that of a group. -/
theorem resolve_concatenation_open :
    ({} : Scope).resolve (concatenation ["\\", "b"]) = .ok (.string "\\\" + \"b")
      ∧ ({} : Scope).resolve (concatenation ["\\", "b"]) ≠ .ok (.string (String.join ["\\", "b"]))
      ∧ ({} : Scope).resolve (concatenation ["(", "b"])
        = .error (.malformed (.parentheses "\"(\" + \"b\"")) := by
  have hrun : ({} : Scope).resolve (concatenation ["\\", "b"]) = .ok (.string "\\\" + \"b") := by
    rw [Scope.resolve_of_between _ (between?_concatenation (by simp)), if_neg (by decide +kernel)]
    rfl
  refine ⟨hrun, ?_, ?_⟩
  · rw [hrun]
    simp [String.join]
  · rw [Scope.resolve_of_between _ (between?_concatenation (by simp)), if_pos (by decide +kernel)]
    rfl

end ConfigLang
