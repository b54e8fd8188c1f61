import ConfigLang.Proofs.ExpressionGrammar
import ConfigLang.Proofs.SharedValue

set_option autoImplicit false

/-! # Groups and what stands next to them

There is no parser for expressions: the text of its value takes the place of a group, and may run into
what stands next to it. Main statement: as long as parentheses and quotes stay apart while groups are
replaced, an expression that has a value is a sum of the grammar exactly if no group stands next to an
operand or another group (`Scope.derives_iff_separated`). -/

namespace ConfigLang

open Scan

/-- Two scans outside quotes stay together. -/
theorem Scan.Quotes.span_scan_of_span_none {s t : Quotes} (hs : s.span? = none) (ht : t.span? = none)
    (text : List Char) : (s.scan text).span? = (t.scan text).span? := by
  cases text with
  | nil => rw [scan_nil, scan_nil, hs, ht]
  | cons c rest => rw [scan_cons, scan_cons, step_eq_of_span_none hs ht]

namespace Expr

namespace Symbol

/-! ## Symbols of a text -/

def ofToken : Token → Symbol
  | .operand text => .operand text
  | .operator op => .operator op

/-- The symbols of a text without parentheses. -/
def ofPiece (text : List Char) : List Symbol :=
  (Token.scan text).map ofToken

def parenthesis? : Char → Option Symbol
  | '(' => some .opening
  | ')' => some .closing
  | _ => none

/-- The symbols of what is left of an expression, where `piece` holds the characters behind the last
    parenthesis in reverse. -/
def scanFrom (s : Quotes) (piece : List Char) : List Char → List Symbol
  | [] => ofPiece piece.reverse
  | c :: rest =>
    match (if s.outside c then parenthesis? c else none) with
    | some symbol => ofPiece piece.reverse ++ symbol :: scanFrom {} [] rest
    | none => scanFrom (s.step c) (c :: piece) rest

/-- The operands, operators and parentheses of an expression, parentheses inside quotes aside. -/
def scan (expr : List Char) : List Symbol :=
  scanFrom {} [] expr

theorem isQuote_of_parenthesis? {c : Char} {symbol : Symbol} (h : parenthesis? c = some symbol) :
    Text.isQuote c = false := by
  unfold parenthesis? at h
  split at h
  · rfl
  · rfl
  · exact absurd h (by simp)

/-- Behind a parenthesis outside quotes no span is open. -/
theorem span_step_of_parenthesis {s : Quotes} {c : Char} {symbol : Symbol}
    (h : (if s.outside c then parenthesis? c else none) = some symbol) : (s.step c).span? = none := by
  split at h
  next houtside =>
    rw [Quotes.outside, Bool.and_eq_true] at houtside
    exact Quotes.span_step_of_not_quote (Option.isNone_iff_eq_none.mp houtside.1)
      (isQuote_of_parenthesis? h)
  next => exact absurd h (by simp)

theorem separated_ofPiece (text : List Char) : Separated (ofPiece text) := by
  have habuts : ∀ x y, abuts (ofToken x) (ofToken y) = false := by
    intro x y
    cases x <;> cases y <;> rfl
  exact (List.isChain_map ofToken).mpr (List.pairwise_of_forall habuts).isChain

/-! ## Pieces -/

/-- Whether no parenthesis stands outside quotes in a text. -/
def hidesParentheses (text : List Char) : Bool :=
  (cutUnquoted? (fun c => (parenthesis? c).isSome) text).isNone

theorem scanFrom_of_span_none {s t : Quotes} (hs : s.span? = none) (ht : t.span? = none)
    (piece text : List Char) : scanFrom s piece text = scanFrom t piece text := by
  cases text with
  | nil => rfl
  | cons c rest =>
    have houtside : s.outside c = t.outside c := by simp [Quotes.outside, hs, ht]
    rw [scanFrom, scanFrom, houtside, Quotes.step_eq_of_span_none hs ht]

theorem scanFrom_of_hides {s : Quotes} {text : List Char}
    (h : cutWhen? Quotes.step (fun s c => s.outside c && (parenthesis? c).isSome) s text = none)
    (piece rest : List Char) :
    scanFrom s piece (text ++ rest) = scanFrom (s.scan text) (text.reverse ++ piece) rest := by
  induction text generalizing s piece with
  | nil => rfl
  | cons c text ih =>
    rw [cutWhen?] at h
    split at h
    · exact absurd h (by simp)
    next hc =>
      have hnone : (if s.outside c then parenthesis? c else none) = none := by
        rw [Bool.and_eq_true, not_and, Option.isSome_iff_ne_none, not_not] at hc
        split
        next houtside => exact hc houtside
        next => rfl
      rw [List.cons_append, scanFrom, hnone]
      dsimp only
      rw [ih (Option.map_eq_none_iff.mp h), Quotes.scan_cons]
      simp

theorem scan_append_of_hides {text : List Char} (h : hidesParentheses text = true)
    (rest : List Char) :
    scan (text ++ rest) = scanFrom (({} : Quotes).scan text) text.reverse rest := by
  rw [scan, scanFrom_of_hides (Option.isNone_iff_eq_none.mp h), List.append_nil]

theorem scan_eq_ofPiece {text : List Char} (h : hidesParentheses text = true) :
    scan text = ofPiece text := by
  have hpiece := scan_append_of_hides h []
  rw [List.append_nil] at hpiece
  rw [hpiece, scanFrom, List.reverse_reverse]

theorem scanFrom_parenthesis {s : Quotes} (hs : s.span? = none) {c : Char} {symbol : Symbol}
    (hc : parenthesis? c = some symbol) (piece rest : List Char) :
    scanFrom s piece (c :: rest) = ofPiece piece.reverse ++ symbol :: scan rest := by
  rw [scanFrom, if_pos (Quotes.outside_of_not_quote hs (isQuote_of_parenthesis? hc)), hc]
  rfl

/-- The symbols of a text before a parenthesis do not depend on what follows. -/
theorem scanFrom_append_parenthesis {s : Quotes} {text : List Char} {c : Char} {symbol : Symbol}
    (hspan : (s.scan text).span? = none) (hc : parenthesis? c = some symbol) (piece rest : List Char) :
    scanFrom s piece (text ++ c :: rest) = scanFrom s piece text ++ symbol :: scan rest := by
  induction text generalizing s piece with
  | nil => exact scanFrom_parenthesis hspan hc piece rest
  | cons d text ih =>
    rw [Quotes.scan_cons] at hspan
    rw [List.cons_append, scanFrom, scanFrom]
    split
    next symbol' hd =>
      rw [Quotes.span_scan_of_span_none (t := {}) (span_step_of_parenthesis hd) rfl] at hspan
      rw [ih hspan, List.append_assoc, List.cons_append]
    next => exact ih hspan _

/-- A piece goes on until the next parenthesis. -/
theorem scanFrom_eq_append (s : Quotes) (piece text : List Char) :
    ∃ more symbols, scanFrom s piece text = ofPiece (piece.reverse ++ more) ++ symbols := by
  induction text generalizing s piece with
  | nil => exact ⟨[], [], by rw [scanFrom, List.append_nil, List.append_nil]⟩
  | cons c rest ih =>
    rw [scanFrom]
    split
    · exact ⟨[], _ :: _, by rw [List.append_nil]⟩
    · obtain ⟨more, symbols, heq⟩ := ih (s.step c) (c :: piece)
      exact ⟨c :: more, symbols, by rw [heq]; simp⟩

/-- Where a piece can be cut in two, so can its symbols. -/
theorem scanFrom_append_piece {s : Quotes} {front back rest : List Char}
    (h : ∀ more, Token.scan (front ++ (back ++ more))
      = Token.scan front ++ Token.scan (back ++ more)) :
    scanFrom s (back.reverse ++ front.reverse) rest = ofPiece front ++ scanFrom s back.reverse rest := by
  induction rest generalizing s back with
  | nil =>
    have hpiece := h []
    rw [List.append_nil] at hpiece
    rw [scanFrom, scanFrom, ← List.reverse_append, List.reverse_reverse, List.reverse_reverse, ofPiece,
      hpiece, List.map_append]
    rfl
  | cons c rest ih =>
    rw [scanFrom, scanFrom]
    split
    · have hpiece := h []
      rw [List.append_nil] at hpiece
      rw [← List.reverse_append, List.reverse_reverse, List.reverse_reverse, ofPiece, hpiece,
        List.map_append, List.append_assoc]
      rfl
    · have hnext : ∀ more, Token.scan (front ++ (back ++ [c] ++ more))
          = Token.scan front ++ Token.scan (back ++ [c] ++ more) := by
        intro more
        rw [List.append_assoc]
        exact h _
      have hrest := @ih (s.step c) _ hnext
      rw [List.reverse_append] at hrest
      exact hrest

/-! ## Splicing -/

/-- Behind a text that may stand before a group, symbols begin afresh. -/
theorem scanFrom_append {s : Quotes} {piece text rest : List Char}
    (hs : s = ({} : Quotes).scan piece.reverse) (hspan : (s.scan text).span? = none)
    (hlast : ∀ x ∈ (scanFrom s piece text).getLast?, abuts x .opening = false) :
    scanFrom s piece (text ++ rest) = scanFrom s piece text ++ scan rest := by
  induction text generalizing s piece with
  | nil =>
    have hoperand : ∀ operand, (Token.scan piece.reverse).getLast? ≠ some (.operand operand) := by
      intro operand hlastToken
      have hsymbol := hlast (.operand operand) (by
        rw [scanFrom, ofPiece, List.getLast?_map, hlastToken]
        rfl)
      exact absurd hsymbol (by simp [abuts])
    have hpiece : ∀ more, Token.scan (piece.reverse ++ ([] ++ more))
        = Token.scan piece.reverse ++ Token.scan ([] ++ more) := by
      intro more
      refine Token.scanFrom_append_of_last (hs ▸ hspan) (fun _ c hc => ?_) hoperand
      exact absurd hc List.not_mem_nil
    have hcut := @scanFrom_append_piece s _ _ rest hpiece
    rw [List.reverse_reverse] at hcut
    rw [List.nil_append, scanFrom]
    refine hcut.trans ?_
    exact congrArg (ofPiece piece.reverse ++ ·) (scanFrom_of_span_none (t := {}) hspan rfl [] rest)
  | cons c text ih =>
    rw [Quotes.scan_cons] at hspan
    rw [scanFrom] at hlast
    rw [List.cons_append, scanFrom, scanFrom]
    split at hlast
    next symbol hc =>
      rw [Quotes.span_scan_of_span_none (t := {}) (span_step_of_parenthesis hc) rfl] at hspan
      have hlater : ∀ x ∈ (scanFrom {} [] text).getLast?, abuts x .opening = false := by
        intro x hx
        refine hlast x ?_
        rw [List.getLast?_append, List.getLast?_cons, Option.mem_def.mp hx]
        rfl
      have hrest := @ih {} [] rfl hspan hlater
      rw [hrest, List.append_assoc, List.cons_append]
    next hc =>
      refine ih ?_ hspan hlast
      rw [List.reverse_cons, Quotes.scan_append, ← hs]
      rfl

/-- Between texts that may stand before and behind a group, a text without parentheses keeps its own
    symbols. -/
theorem scan_append_of_head? {text rest : List Char} (hhides : hidesParentheses text = true)
    (hspan : (({} : Quotes).scan text).span? = none)
    (hfirst : ∀ y ∈ (scan rest).head?, abuts .closing y = false) :
    scan (text ++ rest) = ofPiece text ++ scan rest := by
  rw [scan_append_of_hides hhides]
  cases rest with
  | nil =>
    rw [scanFrom, List.reverse_reverse]
    exact (List.append_nil _).symm
  | cons c rest =>
    cases hc : parenthesis? c with
    | some symbol =>
      have hstart : scan (c :: rest) = symbol :: scan rest := scanFrom_parenthesis rfl hc [] rest
      rw [scanFrom_parenthesis hspan hc, List.reverse_reverse, hstart]
    | none =>
      have hnone : ∀ s : Quotes, (if s.outside c then parenthesis? c else none) = none := by
        intro s
        rw [hc, ite_self]
      have hstart : scan (c :: rest) = scanFrom (({} : Quotes).step c) [c] rest := by
        rw [scan, scanFrom, hnone]
      -- an operand would stand behind the text
      have hdelimiter : Token.isDelimiter c = true := by
        by_contra hne
        obtain ⟨more, symbols, heq⟩ := scanFrom_eq_append (({} : Quotes).step c) [c] rest
        obtain ⟨operand, tokens, hscan⟩ :=
          Token.scan_cons_of_not_delimiter (Bool.eq_false_iff.mpr hne) more
        have hoperand : (scan (c :: rest)).head? = some (.operand operand) := by
          rw [hstart, heq, List.reverse_singleton, List.singleton_append, ofPiece, hscan]
          rfl
        exact absurd (hfirst _ hoperand) (by simp [abuts])
      have hpiece : ∀ more, Token.scan (text ++ ([c] ++ more))
          = Token.scan text ++ Token.scan ([c] ++ more) := by
        intro more
        refine Token.scan_append hspan fun d hd => ?_
        obtain rfl := Option.some.inj hd
        exact hdelimiter
      have hcut := @scanFrom_append_piece (({} : Quotes).step c) _ _ rest hpiece
      rw [hstart, scanFrom, hnone, Quotes.step_eq_of_span_none (t := {}) hspan rfl]
      exact hcut

variable {text before inner after : List Char}

theorem hidesParentheses_of_not_mem (hopen : '(' ∉ text) (hclose : ')' ∉ text) :
    hidesParentheses text = true := by
  have hnone : ∀ c ∈ text, (parenthesis? c).isSome = false := by
    intro c hc
    unfold parenthesis?
    split
    · exact absurd hc hopen
    · exact absurd hc hclose
    · rfl
  rw [hidesParentheses, cutUnquoted?, cutWhen?_eq_none_of_forall hnone]
  rfl

/-- The symbols of a text with a group outside quotes. -/
theorem scan_lastGroup (hgroup : LastGroup text before inner after)
    (hbefore : Quotes.closed before = true) (hinner : Quotes.closed inner = true) :
    scan text = scan before ++ .opening :: (ofPiece inner ++ .closing :: scan after) := by
  have hpiece := scan_eq_ofPiece
    (hidesParentheses_of_not_mem hgroup.open_not_mem_inner hgroup.close_not_mem_inner)
  have hrest : scan (inner ++ ')' :: after) = scan inner ++ .closing :: scan after :=
    scanFrom_append_parenthesis (Quotes.span_of_closed hinner) rfl [] after
  rw [hgroup.text_eq, ← hpiece, ← hrest]
  exact scanFrom_append_parenthesis (Quotes.span_of_closed hbefore) rfl [] _

/-- The symbols of the text in which the text of a value has taken the place of a group. -/
theorem scan_spliced {spliced : List Char} (hbefore : Quotes.closed before = true)
    (hspliced : Quotes.closed spliced = true) (hhides : hidesParentheses spliced = true)
    (hlast : ∀ x ∈ (scan before).getLast?, abuts x .opening = false)
    (hfirst : ∀ y ∈ (scan after).head?, abuts .closing y = false) :
    scan (before ++ spliced ++ after) = scan before ++ (ofPiece spliced ++ scan after) := by
  have hrest := scan_append_of_head? hhides (Quotes.span_of_closed hspliced) hfirst
  rw [List.append_assoc, ← hrest]
  exact scanFrom_append rfl (Quotes.span_of_closed hbefore) hlast

end Symbol

open Expr.Symbol

/-! ## Reading a piece -/

/-- A piece opens and closes no group. -/
theorem Progress.depth_of_run_ofPiece {p q : Progress} {text : List Char}
    (h : p.run (ofPiece text) = some q) : q.depth = p.depth := by
  rw [ofPiece] at h
  generalize Token.scan text = tokens at h
  induction tokens generalizing p with
  | nil => rw [← Option.some.inj h]
  | cons token rest ih =>
    rw [List.map_cons, run, Option.bind_eq_some_iff] at h
    obtain ⟨next, hstep, hrest⟩ := h
    rw [ih hrest]
    cases token with
    | operand text =>
      rw [ofToken, step] at hstep
      split at hstep
      · exact absurd hstep (by simp)
      · rw [← Option.some.inj hstep]
    | operator op =>
      rw [ofToken, step] at hstep
      split at hstep
      · rw [← Option.some.inj hstep]
      · exact absurd hstep (by simp)

/-- Tokens that are read as a chain can be read as symbols. -/
theorem Chain.run_of_read {expr : List Char} {resolve : List Char → Except Fault Value}
    (tokens : List Token) (depth : Nat) :
    (∀ done negative c, readOperand expr resolve done negative tokens = .ok c →
        Progress.run ⟨false, depth⟩ (tokens.map ofToken) = some ⟨true, depth⟩)
      ∧ ∀ chain c, readOperator expr resolve chain tokens = .ok c →
        Progress.run ⟨true, depth⟩ (tokens.map ofToken) = some ⟨true, depth⟩ := by
  induction tokens with
  | nil =>
    refine ⟨?_, fun chain c h => rfl⟩
    intro done negative c h
    cases done <;> exact absurd h (by simp [readOperand])
  | cons token tokens ih =>
    obtain ⟨ihOperand, ihOperator⟩ := ih
    cases token with
    | operator op =>
      refine ⟨?_, ?_⟩
      · intro done negative c h
        rw [readOperand] at h
        split at h
        next hop =>
          subst hop
          exact ihOperand done _ c h
        next => exact absurd h (by simp)
      · intro chain c h
        rw [readOperator] at h
        exact ihOperand _ _ c h
    | operand text =>
      refine ⟨?_, ?_⟩
      · intro done negative c h
        rw [readOperand_operand] at h
        obtain ⟨v, -, hsign⟩ := exists_of_bind h
        obtain ⟨w, -, hrest⟩ := exists_of_bind hsign
        exact ihOperator _ c hrest
      · intro chain c h
        rw [readOperator] at h
        exact absurd h (by simp)

theorem run_of_evaluateFlat {resolve : List Char → Except Fault Value} {text : List Char} {v : Value}
    (h : evaluateFlat resolve text = .ok v) (depth : Nat) :
    Progress.run ⟨false, depth⟩ (ofPiece text) = some ⟨true, depth⟩ := by
  obtain ⟨c, hread, -⟩ := exists_of_bind h
  exact (Chain.run_of_read _ depth).1 none false c hread

/-! ## Replacing one group -/

section

variable {x inner y : List Symbol} {spliced : List Char}

theorem neighbours_of_separated (h : Separated (x ++ .opening :: (inner ++ .closing :: y))) :
    Separated x ∧ Separated y ∧ (∀ s ∈ x.getLast?, abuts s .opening = false)
      ∧ ∀ s ∈ y.head?, abuts .closing s = false := by
  obtain ⟨hx, hgroup, hlast⟩ := List.isChain_append.mp h
  rw [← List.cons_append] at hgroup
  obtain ⟨-, hbehind, -⟩ := List.isChain_append.mp hgroup
  obtain ⟨hfirst, hy⟩ := List.isChain_cons.mp hbehind
  exact ⟨hx, hy, fun s hs => hlast s hs .opening rfl, hfirst⟩

/-- Where a group may stand, the text of a value may stand too. -/
theorem separated_spliced (h : Separated (x ++ .opening :: (inner ++ .closing :: y))) :
    Separated (x ++ (ofPiece spliced ++ y)) := by
  obtain ⟨hx, hy, hlast, hfirst⟩ := neighbours_of_separated h
  refine List.isChain_append.mpr ⟨hx, List.isChain_append.mpr ⟨separated_ofPiece spliced, hy, ?_⟩, ?_⟩
  · exact fun s _ t ht => abuts_of_closing (hfirst t ht) s
  · exact fun s hs t _ => abuts_of_opening (hlast s hs) t

/-- What can be read with the text of a value can be read with a group in its place. -/
theorem run_of_spliced (hsep : Separated (x ++ .opening :: (inner ++ .closing :: y)))
    (hinner : ∀ depth, Progress.run ⟨false, depth⟩ inner = some ⟨true, depth⟩)
    (h : Progress.run {} (x ++ (ofPiece spliced ++ y)) = some ⟨true, 0⟩) :
    Progress.run {} (x ++ .opening :: (inner ++ .closing :: y)) = some ⟨true, 0⟩ := by
  obtain ⟨-, -, hlast, hfirst⟩ := neighbours_of_separated hsep
  rw [Progress.run_append, Option.bind_eq_some_iff] at h
  obtain ⟨p, hx, hrest⟩ := h
  have hcomplete := Progress.complete_of_run hx hlast
  rw [Progress.run_append, Option.bind_eq_some_iff] at hrest
  obtain ⟨q, hpiece, hy⟩ := hrest
  have hdepth := Progress.depth_of_run_ofPiece hpiece
  obtain ⟨complete, depth⟩ := p
  obtain ⟨complete', depth'⟩ := q
  obtain rfl : complete = false := hcomplete
  obtain rfl : depth' = depth := hdepth
  -- behind the value an operand has been read, or else a sign follows
  have hbehind : Progress.run ⟨true, depth'⟩ y = some ⟨true, 0⟩ := by
    cases complete' with
    | true => exact hy
    | false => exact Progress.run_behind_operand hy hfirst
  rw [Progress.run_append_of_some hx, Progress.run_opening,
    Progress.run_append_of_some (hinner _), Progress.run_closing, hbehind]

end

/-! ## Replacing groups -/

/-- Whether groups and quotes stay apart while groups are replaced: the parentheses of each group stand
    outside quotes, and the text that takes its place leaves no quote open and shows no parenthesis
    outside quotes. -/
def groupsOutside (flat : List Char → Except Fault Value) (limit : Nat) (expr : List Char) : Bool :=
  match Text.cutLast? '(' expr with
  | none => true
  | some (before, rest) =>
    match Text.cutFirst? ')' rest with
    | none => true
    | some (inner, after) =>
      Quotes.closed before && Quotes.closed inner
        && match limit, flat inner with
          | limit + 1, .ok v =>
            Quotes.closed (groupText v) && hidesParentheses (groupText v)
              && groupsOutside flat limit (before ++ groupText v ++ after)
          | _, _ => true

section

variable {flat : List Char → Except Fault Value} {limit : Nat} {text reduced : List Char}

/-- Replacing groups ends where none is left, or goes on with the value of the last one. -/
theorem replaceGroups_cases (h : replaceGroups flat limit text = .ok reduced) :
    '(' ∉ text ∧ reduced = text
      ∨ ∃ limit' before inner after v, limit = limit' + 1 ∧ LastGroup text before inner after
        ∧ flat inner = .ok v
        ∧ replaceGroups flat limit' (before ++ groupText v ++ after) = .ok reduced := by
  cases hopen : Text.cutLast? '(' text with
  | none =>
    rw [replaceGroups, hopen] at h
    exact Or.inl ⟨Text.not_mem_of_cutLast? hopen, (Except.ok.inj h).symm⟩
  | some sides =>
    obtain ⟨before, rest⟩ := sides
    cases hclose : Text.cutFirst? ')' rest with
    | none =>
      rw [replaceGroups, hopen] at h
      simp only [hclose] at h
      exact absurd h (by simp)
    | some sides =>
      obtain ⟨inner, after⟩ := sides
      have hgroup := lastGroup_of_cut hopen hclose
      cases limit with
      | zero =>
        rw [replaceGroups, hopen] at h
        simp only [hclose] at h
        exact absurd h (by simp)
      | succ limit =>
        rw [hgroup.replaceGroups_eq] at h
        obtain ⟨v, hv, hrest⟩ := exists_of_bind h
        exact Or.inr ⟨limit, before, inner, after, v, rfl, hgroup, hv, hrest⟩

theorem LastGroup.outside {before inner after : List Char} {v : Value}
    (hgroup : LastGroup text before inner after) (hv : flat inner = .ok v)
    (h : groupsOutside flat (limit + 1) text = true) :
    Quotes.closed before = true ∧ Quotes.closed inner = true ∧ Quotes.closed (groupText v) = true
      ∧ hidesParentheses (groupText v) = true
      ∧ groupsOutside flat limit (before ++ groupText v ++ after) = true := by
  rw [groupsOutside, hgroup.cutLast?_eq] at h
  dsimp only at h
  rw [hgroup.cutFirst?_eq] at h
  simp only [hv, Bool.and_eq_true] at h
  exact ⟨h.1.1, h.1.2, h.2.1.1, h.2.1.2, h.2.2⟩

/-- Induction over the groups that are replaced, with the last one first. -/
@[elab_as_elim]
theorem replaceGroups_induction {motive : Nat → List Char → Prop}
    (none_left : ∀ limit, '(' ∉ reduced → motive limit reduced)
    (replaced : ∀ limit text before inner after v, LastGroup text before inner after →
      flat inner = .ok v → motive limit (before ++ groupText v ++ after) → motive (limit + 1) text)
    (h : replaceGroups flat limit text = .ok reduced) : motive limit text := by
  induction limit generalizing text with
  | zero =>
    rcases replaceGroups_cases h with ⟨hopen, rfl⟩ | ⟨limit', _, _, _, _, hlimit, -, -, -⟩
    · exact none_left 0 hopen
    · exact absurd hlimit (by simp)
  | succ limit ih =>
    rcases replaceGroups_cases h with ⟨hopen, rfl⟩ | ⟨limit', _, _, _, v, hlimit, hgroup, hv, hrest⟩
    · exact none_left (limit + 1) hopen
    · obtain rfl := Nat.succ.inj hlimit
      exact replaced limit text _ _ _ v hgroup hv (ih hrest)

theorem open_not_mem_of_replaceGroups (h : replaceGroups flat limit text = .ok reduced) :
    '(' ∉ reduced := by
  refine replaceGroups_induction (motive := fun _ _ => '(' ∉ reduced) ?_ ?_ h
  · exact fun _ hopen => hopen
  · exact fun _ _ _ _ _ _ _ _ hopen => hopen

end

section

variable {resolve : List Char → Except Fault Value} {text reduced : List Char} {limit : Nat}

/-- What can be read when the groups of a text are replaced can be read before. -/
theorem run_of_replaceGroups (h : replaceGroups (evaluateFlat resolve) limit text = .ok reduced)
    (houtside : groupsOutside (evaluateFlat resolve) limit text = true)
    (hsep : Separated (scan text)) (hread : Progress.run {} (scan reduced) = some ⟨true, 0⟩) :
    Progress.run {} (scan text) = some ⟨true, 0⟩ := by
  revert houtside hsep
  refine replaceGroups_induction ?none_left ?replaced h
  case none_left => exact fun _ _ _ _ => hread
  case replaced =>
    intro limit text before inner after v hgroup hv ih houtside hsep
    obtain ⟨hbefore, hinner, hclosed, hhides, hrest⟩ := hgroup.outside hv houtside
    rw [scan_lastGroup hgroup hbefore hinner] at hsep ⊢
    obtain ⟨-, -, hlast, hfirst⟩ := neighbours_of_separated hsep
    have hspliced := scan_spliced hbefore hclosed hhides hlast hfirst
    rw [hspliced] at ih
    exact run_of_spliced hsep (run_of_evaluateFlat hv) (ih hrest (separated_spliced hsep))

/-- A text with a value and without groups can be read. -/
theorem run_of_no_group {v : Value} (hopen : '(' ∉ text)
    (hclose : (cutUnquoted? (· == ')') text).isSome = false) (h : evaluateFlat resolve text = .ok v) :
    Progress.run {} (scan text) = some ⟨true, 0⟩ := by
  have hparenthesis : ∀ c ∈ text, (parenthesis? c).isSome = true → (c == ')') = true := by
    intro c hc hsome
    unfold parenthesis? at hsome
    split at hsome
    · exact absurd hc hopen
    · rfl
    · exact absurd hsome (by simp)
  have hhides : hidesParentheses text = true := by
    rw [Option.isSome_eq_false_iff, Option.isNone_iff_eq_none] at hclose
    refine Option.isNone_iff_eq_none.mpr (cutWhen?_eq_none_of_imp (fun c hc s hhit => ?_) hclose)
    rw [Bool.and_eq_true] at hhit ⊢
    exact ⟨hhit.1, hparenthesis c hc hhit.2⟩
  rw [scan_eq_ofPiece hhides]
  exact run_of_evaluateFlat h 0

end

end Expr

open Expr.Symbol

section

variable {scope : Scope} {text : List Char}

/-- The text of a group reads as an operand wherever one is expected, so an expression that has a value,
    with its groups apart from quotes and from their neighbours, can be read. -/
theorem Scope.run_of_evaluateExpression {v : Value} (h : scope.evaluateExpression text = .ok v)
    (houtside : Expr.groupsOutside (Expr.evaluateFlat scope.resolveOperand)
      (text.count '(' + Expr.groupsFromStrings) text = true)
    (hsep : Separated (scan text)) : Expr.Progress.run {} (scan text) = some ⟨true, 0⟩ := by
  rw [evaluateExpression, Expr.evaluate] at h
  generalize text.count '(' + Expr.groupsFromStrings = limit at h houtside
  obtain ⟨reduced, hreduced, hflat⟩ := exists_of_bind h
  split at hflat
  next => exact absurd hflat (by simp [throw, throwThe, MonadExceptOf.throw])
  next hclose =>
    have hopen := Expr.open_not_mem_of_replaceGroups hreduced
    have hread := Expr.run_of_no_group hopen (Bool.eq_false_iff.mpr hclose) hflat
    exact Expr.run_of_replaceGroups hreduced houtside hsep hread

/-- An expression that has a value, and whose groups stand apart from quotes while they are replaced, is
    a sum exactly if no group stands next to an operand or another group. -/
theorem Scope.derives_iff_separated (h : (scope.evaluateExpression text).isOk = true)
    (houtside : Expr.groupsOutside (Expr.evaluateFlat scope.resolveOperand)
      (text.count '(' + Expr.groupsFromStrings) text = true) :
    Expr.Derives .sum (scan text) ↔ Separated (scan text) := by
  rw [Expr.derives_iff_run]
  refine ⟨Expr.Progress.separated_of_run, fun hsep => ?_⟩
  cases hvalue : scope.evaluateExpression text with
  | error f =>
    rw [hvalue] at h
    exact absurd h Bool.false_ne_true
  | ok v => exact run_of_evaluateExpression hvalue houtside hsep

theorem Scope.derives_product : Expr.Derives .sum (scan "2 * (1 + 1)".toList) := by
  have hvalue : (({} : Scope).evaluateExpression "2 * (1 + 1)".toList).isOk = true := by
    decide +kernel
  exact (derives_iff_separated hvalue (by decide +kernel)).mpr (by decide +kernel)

end

/-- Expressions that have a value where the entries are given, though they are no sums: a group stands
    next to an operand, or another group; the text of a value leaves a quote open; the parentheses of a
    group come to stand inside the quotes of another value. -/
def mergingExpressions : List (List (String × Value) × String) :=
  [([], "2(3)"), ([], "(1)(2)"), ([], "2 (0-3)"),
    ([("x", .string "\\"), ("y", .string " + '")], "(x) + 1 1 + (y)"),
    ([("x", .string "(y + "), ("y", .string " + '")], "(x) + 2)"),
    ([("x", .string ") + 1 + '")], "((x) + 1 1)")]

/-- An expression without quotes that has a value, though it is no sum. -/
structure Scope.Merges (scope : Scope) (text : List Char) : Prop where
  unquoted : text.any Text.isQuote = false
  has_value : (scope.evaluateExpression text).isOk = true
  no_sum : ¬Expr.Derives .sum (scan text)

theorem Scope.merges_mergingExpressions :
    mergingExpressions.Forall fun run => Merges { tree := ⟨run.1⟩ } run.2.toList := by
  have hunquoted : ∀ run ∈ mergingExpressions, run.2.toList.any Text.isQuote = false := by
    decide +kernel
  have hvalue : ∀ run ∈ mergingExpressions,
      (({ tree := ⟨run.1⟩ } : Scope).evaluateExpression run.2.toList).isOk = true := by
    decide +kernel
  have hsum : ∀ run ∈ mergingExpressions, ¬Expr.Derives .sum (scan run.2.toList) := by
    decide +kernel
  rw [List.forall_iff_forall_mem]
  exact fun run hrun => ⟨hunquoted run hrun, hvalue run hrun, hsum run hrun⟩

end ConfigLang
