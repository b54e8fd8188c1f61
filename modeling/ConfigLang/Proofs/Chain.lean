import ConfigLang.Expr.Chain
import ConfigLang.Literal

set_option autoImplicit false

/-! # Reading and folding chains piece by piece

Outside quotes a delimiter ends the token before it, so the tokens of a text are those of its pieces
(`Token.scan_append`, `Token.scan_operator`). Operands that are read one after another make a chain,
and a fold over a longer chain goes on from the fold over its beginning. -/

namespace ConfigLang.Expr

open Scan

/-! ## Tokens -/

namespace Token

/-- Whether a character ends an operand that stands outside quotes. -/
def isDelimiter (c : Char) : Bool :=
  Text.isBlank c || isOperator c

theorem isOperator_iff {c : Char} : isOperator c = (Operator.ofChar? c).isSome := by
  unfold Operator.ofChar?
  split
  case h_6 hadd hsub hmul hdiv hrem =>
    simp only [isOperator, Bool.or_eq_false_iff, beq_eq_false_iff_ne, Option.isSome_none]
    exact ⟨⟨⟨⟨hadd, hsub⟩, hmul⟩, hdiv⟩, hrem⟩
  all_goals rfl

theorem isQuote_of_isDelimiter {c : Char} (h : isDelimiter c = true) : Text.isQuote c = false := by
  rw [← Bool.not_eq_true]
  intro hquote
  simp only [Text.isQuote, Bool.or_eq_true, beq_iff_eq] at hquote
  rcases hquote with rfl | rfl <;> exact absurd h (by decide)

/-- Outside quotes a scan knows nothing of the characters before. -/
theorem scanFrom_of_span_none {s t : Quotes} (hs : s.span? = none) (ht : t.span? = none)
    (gathering text : List Char) : scanFrom s gathering text = scanFrom t gathering text := by
  cases text with
  | nil => rfl
  | cons c rest => simp only [scanFrom, hs, ht, Quotes.step_eq_of_span_none hs ht]

theorem scan_operator {c : Char} {op : Operator} (h : Operator.ofChar? c = some op)
    (rest : List Char) : scan (c :: rest) = .operator op :: scan rest := by
  have hoperator : isOperator c = true := by rw [isOperator_iff, h]; rfl
  have hquote : Text.isQuote c = false := isQuote_of_isDelimiter (by simp [isDelimiter, hoperator])
  have hstep : (({} : Quotes).step c).span? = none := Quotes.span_step_of_not_quote rfl hquote
  rw [scan, scanFrom]
  simp only [hquote, h, Bool.false_eq_true, if_false]
  rw [scanFrom_of_span_none (t := {}) hstep rfl]
  rfl

/-- A delimiter ends the operand before it. -/
theorem scanFrom_delimiter {s : Quotes} (hs : s.span? = none) {c : Char}
    (h : isDelimiter c = true) (gathering rest : List Char) :
    scanFrom s gathering (c :: rest) = gathered gathering ++ scan (c :: rest) := by
  have hquote := isQuote_of_isDelimiter h
  have hstep := Quotes.span_step_of_not_quote hs hquote
  rw [scan, scanFrom, scanFrom, Quotes.step_eq_of_span_none (s := {}) (t := s) rfl hs]
  simp only [hs, hquote, Bool.false_eq_true, if_false]
  cases hop : Operator.ofChar? c with
  | some op => rfl
  | none =>
    have hblank : Text.isBlank c = true := by
      simpa [isDelimiter, isOperator_iff, hop] using h
    simp only [hblank, if_true]
    rfl

/-- The tokens of a text before a delimiter do not depend on what follows. -/
theorem scanFrom_append {s : Quotes} {text rest : List Char} (h : (s.scan text).span? = none)
    (hrest : ∀ c ∈ rest.head?, isDelimiter c = true) (gathering : List Char) :
    scanFrom s gathering (text ++ rest) = scanFrom s gathering text ++ scan rest := by
  induction text generalizing s gathering with
  | nil =>
    cases rest with
    | nil =>
      rw [List.nil_append, scanFrom]
      exact (List.append_nil _).symm
    | cons c rest => exact scanFrom_delimiter h (hrest c rfl) gathering rest
  | cons c text ih =>
    rw [Quotes.scan_cons] at h
    rw [List.cons_append, scanFrom, scanFrom]
    cases s.span? with
    | some q =>
      dsimp only
      split
      · rw [ih h, List.cons_append]
      · exact ih h _
    | none =>
      dsimp only
      split
      · rw [ih h, List.append_assoc]
      · split
        · rw [ih h, List.append_assoc, List.cons_append]
        · split
          · rw [ih h, List.append_assoc]
          · exact ih h _

theorem scan_append {text rest : List Char} (h : (({} : Quotes).scan text).span? = none)
    (hrest : ∀ c ∈ rest.head?, isDelimiter c = true) :
    scan (text ++ rest) = scan text ++ scan rest :=
  scanFrom_append h hrest []

theorem scan_blank {c : Char} (h : Text.isBlank c = true) (rest : List Char) :
    scan (c :: rest) = scan rest := by
  have hdelimiter : isDelimiter c = true := by simp [isDelimiter, h]
  have hquote := isQuote_of_isDelimiter hdelimiter
  have hstep : (({} : Quotes).step c).span? = none := Quotes.span_step_of_not_quote rfl hquote
  have hoperator : Operator.ofChar? c = none := by
    cases hop : Operator.ofChar? c with
    | none => rfl
    | some op =>
      unfold Operator.ofChar? at hop
      split at hop <;> first | exact absurd h (by decide) | exact hop.symm
  rw [scan, scanFrom]
  simp only [hquote, hoperator, h, Bool.false_eq_true, if_false, if_true]
  rw [scanFrom_of_span_none (t := {}) hstep rfl]
  rfl

/-! ## One token -/

/-- Whether a character ends an operand and begins something else. -/
def isBreak (c : Char) : Bool :=
  Text.isQuote c || isOperator c

/-- The characters of a class to which no break belongs are no breaks. -/
theorem isBreak_of_class {p : Char → Bool} (hp : "\"'+-*/%".toList.all (!p ·) = true) {c : Char}
    (hc : p c = true) : isBreak c = false := by
  rw [← Bool.not_eq_true]
  intro hbreak
  have hmem : c ∈ "\"'+-*/%".toList := by
    simpa [isBreak, Text.isQuote, isOperator, or_assoc] using hbreak
  have hnot := List.all_eq_true.mp hp c hmem
  rw [hc] at hnot
  exact absurd hnot (by decide)

theorem scanFrom_of_no_break {s : Quotes} (hs : s.span? = none) {text : List Char}
    (hblank : ∀ c ∈ text, Text.isBlank c = false) (hbreak : ∀ c ∈ text, isBreak c = false)
    (gathering : List Char) : scanFrom s gathering text = gathered (text.reverse ++ gathering) := by
  induction text generalizing s gathering with
  | nil => rfl
  | cons c rest ih =>
    have hc := hbreak c List.mem_cons_self
    rw [isBreak, Bool.or_eq_false_iff] at hc
    obtain ⟨hquote, hoperator⟩ := hc
    rw [isOperator_iff, Option.isSome_eq_false_iff, Option.isNone_iff_eq_none] at hoperator
    have hrest := ih (Quotes.span_step_of_not_quote hs hquote)
      (fun d hd => hblank d (List.mem_cons_of_mem _ hd))
      (fun d hd => hbreak d (List.mem_cons_of_mem _ hd)) (c :: gathering)
    rw [scanFrom]
    simp only [hs, hquote, hoperator, hblank c List.mem_cons_self, Bool.false_eq_true, if_false]
    rw [hrest, List.reverse_cons, List.append_assoc, List.singleton_append]

/-- A text without blanks, quotes and operators is one token. -/
theorem scan_of_no_break {text : List Char} (hne : text ≠ [])
    (hblank : ∀ c ∈ text, Text.isBlank c = false) (hbreak : ∀ c ∈ text, isBreak c = false) :
    scan text = [.operand text] := by
  have htrim : Text.trim text = text := Text.trim_of_no_blank hblank
  rw [scan, scanFrom_of_no_break rfl hblank hbreak, List.append_nil, gathered,
    List.reverse_reverse, htrim]
  simp [hne]

/-- Whether a character neither ends an operand nor belongs to quotes or groups. -/
def isPlain (c : Char) : Bool :=
  !(Text.isBlank c || isBreak c || c == '(' || c == ')')

/-- A text that is one operand wherever it stands. -/
structure PlainOperand (text : List Char) : Prop where
  nonempty : text ≠ []
  plain : ∀ c ∈ text, isPlain c = true

theorem PlainOperand.scan_eq {text : List Char} (h : PlainOperand text) :
    scan text = [.operand text] := by
  have hplain : ∀ c ∈ text, Text.isBlank c = false ∧ isBreak c = false := by
    intro c hc
    have hc := h.plain c hc
    simp only [isPlain, Bool.not_eq_true', Bool.or_eq_false_iff] at hc
    exact hc.1.1
  exact scan_of_no_break h.nonempty (fun c hc => (hplain c hc).1) fun c hc => (hplain c hc).2

/-! ## More than one token -/

theorem gathered_ne_nil {gathering : List Char} {c : Char} (hc : c ∈ gathering)
    (h : Text.isBlank c = false) : ∃ text, gathered gathering = [.operand text] := by
  have hne : Text.trim gathering.reverse ≠ [] := Text.trim_ne_nil (List.mem_reverse.mpr hc) h
  refine ⟨Text.trim gathering.reverse, ?_⟩
  simp [gathered, hne]

/-- What has been gathered ends in an operand, whatever follows. -/
theorem scanFrom_gathering (s : Quotes) {gathering : List Char} {c : Char} (hc : c ∈ gathering)
    (h : Text.isBlank c = false) (text : List Char) :
    ∃ operand tokens, scanFrom s gathering text = .operand operand :: tokens := by
  induction text generalizing s gathering with
  | nil =>
    obtain ⟨operand, hoperand⟩ := gathered_ne_nil hc h
    exact ⟨operand, [], hoperand⟩
  | cons d rest ih =>
    obtain ⟨operand, hoperand⟩ := gathered_ne_nil hc h
    rw [scanFrom]
    split
    · split
      · exact ⟨_, _, rfl⟩
      · exact ih _ (List.mem_cons_of_mem _ hc)
    · split
      · exact ⟨operand, _, by rw [hoperand]; rfl⟩
      · split
        · exact ⟨operand, _, by rw [hoperand]; rfl⟩
        · split
          · exact ⟨operand, _, by rw [hoperand]; rfl⟩
          · exact ih _ (List.mem_cons_of_mem _ hc)

/-- A text that begins neither with a blank nor with an operator begins with an operand. -/
theorem scan_cons_of_not_delimiter {c : Char} (h : isDelimiter c = false) (rest : List Char) :
    ∃ operand tokens, scan (c :: rest) = .operand operand :: tokens := by
  rw [isDelimiter, Bool.or_eq_false_iff] at h
  obtain ⟨hblank, hoperator⟩ := h
  rw [isOperator_iff, Option.isSome_eq_false_iff, Option.isNone_iff_eq_none] at hoperator
  have hgathering := scanFrom_gathering (({} : Quotes).step c) (List.mem_singleton.mpr rfl) hblank rest
  rw [scan, scanFrom]
  simp only [hoperator, hblank, Bool.false_eq_true, if_false]
  split
  · exact hgathering
  · exact hgathering

/-- Behind a text whose tokens do not end in an operand, the tokens begin afresh. -/
theorem scanFrom_append_of_last {s : Quotes} {gathering text rest : List Char}
    (hspan : (s.scan text).span? = none)
    (hgathering : s.span? = none → ∀ c ∈ gathering, Text.isBlank c = false)
    (hlast : ∀ operand, (scanFrom s gathering text).getLast? ≠ some (.operand operand)) :
    scanFrom s gathering (text ++ rest) = scanFrom s gathering text ++ scan rest := by
  induction text generalizing s gathering with
  | nil =>
    cases gathering with
    | nil => exact scanFrom_of_span_none (t := {}) hspan rfl [] rest
    | cons c others =>
      obtain ⟨operand, hoperand⟩ :=
        gathered_ne_nil List.mem_cons_self (hgathering hspan c List.mem_cons_self)
      rw [scanFrom, hoperand] at hlast
      exact absurd rfl (hlast operand)
  | cons c text ih =>
    rw [Quotes.scan_cons] at hspan
    -- what follows the first tokens ends in no operand either
    have hlater : ∀ {front back : List Token},
        (∀ operand, (front ++ back).getLast? ≠ some (.operand operand)) →
        ∀ operand, back.getLast? ≠ some (.operand operand) := by
      intro front back hwhole operand hback
      exact hwhole operand (by rw [List.getLast?_append, hback, Option.some_or])
    have hnone : (s.step c).span? = none → ∀ d ∈ ([] : List Char), Text.isBlank d = false :=
      fun _ d hd => absurd hd List.not_mem_nil
    rw [scanFrom] at hlast
    rw [List.cons_append, scanFrom, scanFrom]
    cases hs : s.span? with
    | some q =>
      rw [hs] at hlast
      dsimp only at hlast ⊢
      split at hlast
      next hcloses =>
        rw [← List.singleton_append] at hlast
        rw [if_pos hcloses, if_pos hcloses, ih hspan hnone (hlater hlast), List.cons_append]
      next hcloses =>
        have hstep := Quotes.span_step_of_not_closes hs (Bool.eq_false_iff.mpr hcloses)
        rw [if_neg hcloses, if_neg hcloses]
        exact ih hspan (fun h => absurd (hstep.symm.trans h) (by simp)) hlast
    | none =>
      rw [hs] at hlast
      dsimp only at hlast ⊢
      split at hlast
      next hquote =>
        have hstep := Quotes.span_step_of_opening hs hquote
        rw [if_pos hquote, if_pos hquote, List.append_assoc,
          ih hspan (fun h => absurd (hstep.symm.trans h) (by simp)) (hlater hlast)]
      next hquote =>
        rw [if_neg hquote, if_neg hquote]
        cases hop : Operator.ofChar? c with
        | some op =>
          rw [hop] at hlast
          dsimp only at hlast ⊢
          rw [← List.singleton_append, ← List.append_assoc] at hlast
          rw [ih hspan hnone (hlater hlast), List.append_assoc, List.cons_append]
        | none =>
          rw [hop] at hlast
          dsimp only at hlast ⊢
          split at hlast
          next hblank =>
            rw [if_pos hblank, if_pos hblank, List.append_assoc, ih hspan hnone (hlater hlast)]
          next hblank =>
            rw [if_neg hblank, if_neg hblank]
            refine ih hspan (fun _ d hd => ?_) hlast
            rcases List.mem_cons.mp hd with rfl | hmem
            · exact Bool.eq_false_iff.mpr hblank
            · exact hgathering hs d hmem

/-- Reading on towards a break: it begins a token, or the rest still holds one. -/
theorem scanFrom_cons_cases {s : Quotes} (hs : s.span? = none) {d : Char} {rest : List Char}
    (htext : ∃ c ∈ d :: rest, isBreak c = true) (gathering : List Char) :
    (∃ token tokens, scanFrom s gathering (d :: rest) = gathered gathering ++ token :: tokens)
      ∨ ((s.step d).span? = none ∧ (∃ c ∈ rest, isBreak c = true)
        ∧ (scanFrom s gathering (d :: rest) = gathered gathering ++ scanFrom (s.step d) [] rest
          ∨ scanFrom s gathering (d :: rest) = scanFrom (s.step d) (d :: gathering) rest)) := by
  rw [scanFrom, hs]
  dsimp only
  by_cases hquote : Text.isQuote d = true
  · have hblank : Text.isBlank d = false := by
      simp only [Text.isQuote, Bool.or_eq_true, beq_iff_eq] at hquote
      rcases hquote with rfl | rfl <;> rfl
    -- a quote opens a span, and that ends in an operand in any case
    obtain ⟨operand, tokens, hscan⟩ :=
      scanFrom_gathering (s.step d) List.mem_cons_self hblank rest
    rw [if_pos hquote]
    exact Or.inl ⟨.operand operand, tokens, by rw [hscan]⟩
  · rw [if_neg hquote]
    cases hop : Operator.ofChar? d with
    | some op => exact Or.inl ⟨_, _, rfl⟩
    | none =>
      -- `d` is no break itself, so the break stands behind it
      have hrest : ∃ c ∈ rest, isBreak c = true := by
        obtain ⟨c, hc, hbreak⟩ := htext
        rcases List.mem_cons.mp hc with rfl | hmem
        · simp [isBreak, hquote, isOperator_iff, hop] at hbreak
        · exact ⟨c, hmem, hbreak⟩
      refine Or.inr ⟨Quotes.span_step_of_not_quote hs (Bool.eq_false_iff.mpr hquote), hrest, ?_⟩
      dsimp only
      split
      · exact Or.inl rfl
      · exact Or.inr rfl

theorem scanFrom_ne_nil {s : Quotes} (hs : s.span? = none) {text : List Char}
    (htext : ∃ c ∈ text, isBreak c = true) (gathering : List Char) :
    scanFrom s gathering text ≠ [] := by
  induction text generalizing s gathering with
  | nil =>
    obtain ⟨c, hc, -⟩ := htext
    exact absurd hc List.not_mem_nil
  | cons d rest ih =>
    rcases scanFrom_cons_cases hs htext gathering with
      ⟨token, tokens, hscan⟩ | ⟨hstep, hrest, hscan | hscan⟩
    · rw [hscan]
      simp
    · rw [hscan, Ne, List.append_eq_nil_iff, not_and]
      exact fun _ => ih hstep hrest []
    · rw [hscan]
      exact ih hstep hrest _

/-- A quote or an operator behind the beginning of an operand begins another token. -/
theorem scanFrom_break {s : Quotes} (hs : s.span? = none) {text : List Char}
    (htext : ∃ c ∈ text, isBreak c = true) {gathering : List Char} {c : Char} (hc : c ∈ gathering)
    (h : Text.isBlank c = false) :
    ∃ operand token tokens, scanFrom s gathering text = .operand operand :: token :: tokens := by
  induction text generalizing s gathering with
  | nil =>
    obtain ⟨c, hc, -⟩ := htext
    exact absurd hc List.not_mem_nil
  | cons d rest ih =>
    obtain ⟨operand, hoperand⟩ := gathered_ne_nil hc h
    rcases scanFrom_cons_cases hs htext gathering with
      ⟨token, tokens, hscan⟩ | ⟨hstep, hrest, hscan | hscan⟩
    · exact ⟨operand, token, tokens, by rw [hscan, hoperand]; rfl⟩
    · obtain ⟨token, tokens, htokens⟩ :=
        List.exists_cons_of_ne_nil (scanFrom_ne_nil hstep hrest [])
      exact ⟨operand, token, tokens, by rw [hscan, hoperand, htokens]; rfl⟩
    · rw [hscan]
      exact ih hstep hrest (List.mem_cons_of_mem _ hc)

/-- A text that begins like an operand and holds a break has more than one token. -/
theorem scan_break {c : Char} {rest : List Char} (hblank : Text.isBlank c = false)
    (hbreak : isBreak c = false) (hrest : ∃ d ∈ rest, isBreak d = true) :
    ∃ operand token tokens, scan (c :: rest) = .operand operand :: token :: tokens := by
  rw [isBreak, Bool.or_eq_false_iff] at hbreak
  obtain ⟨hquote, hoperator⟩ := hbreak
  rw [isOperator_iff, Option.isSome_eq_false_iff, Option.isNone_iff_eq_none] at hoperator
  have hstep : (({} : Quotes).step c).span? = none := Quotes.span_step_of_not_quote rfl hquote
  obtain ⟨operand, token, tokens, hscan⟩ :=
    scanFrom_break hstep hrest (List.mem_singleton.mpr rfl) hblank
  refine ⟨operand, token, tokens, ?_⟩
  rw [scan, scanFrom]
  simp only [hquote, hoperator, hblank, Bool.false_eq_true, if_false]
  exact hscan

end Token

namespace Chain

/-! ## Reading -/

/-- A chain behind what has been read before it. -/
def behind (done : Option (Chain × Operator)) (c : Chain) : Chain :=
  match done with
  | none => c
  | some (chain, op) => ⟨chain.first, chain.rest ++ (op, c.first) :: c.rest⟩

theorem extend_eq_behind (done : Option (Chain × Operator)) (v : Value) :
    extend done v = behind done ⟨v, []⟩ := by
  cases done <;> rfl

theorem behind_behind (done : Option (Chain × Operator)) (c d : Chain) (op : Operator) :
    behind (some (behind done c, op)) d
      = behind done ⟨c.first, c.rest ++ (op, d.first) :: d.rest⟩ := by
  cases done with
  | none => rfl
  | some pair => simp [behind]

/-- An operand is resolved, and its sign is changed if an odd number of signs stands before it. -/
theorem readOperand_operand (expr text : List Char) (resolve : List Char → Except Fault Value)
    (done : Option (Chain × Operator)) (negative : Bool) (tokens : List Token) :
    readOperand expr resolve done negative (.operand text :: tokens)
      = (resolve text).bind fun v => (if negative then negate v else .ok v).bind fun w =>
          readOperator expr resolve (behind done ⟨w, []⟩) tokens := by
  rw [readOperand]
  simp only [← extend_eq_behind]
  cases resolve text with
  | error f => rfl
  | ok v =>
    cases negative with
    | false => rfl
    | true => rfl

/-- Tokens that are read as a chain, whatever stands before and behind them. -/
def Reads (expr : List Char) (resolve : List Char → Except Fault Value) (tokens : List Token)
    (c : Chain) : Prop :=
  ∀ done more, readOperand expr resolve done false (tokens ++ more)
    = readOperator expr resolve (behind done c) more

theorem Reads.append {expr : List Char} {resolve : List Char → Except Fault Value}
    {left right : List Token} {c d : Chain} (hleft : Reads expr resolve left c)
    (hright : Reads expr resolve right d) (op : Operator) :
    Reads expr resolve (left ++ .operator op :: right)
      ⟨c.first, c.rest ++ (op, d.first) :: d.rest⟩ := by
  intro done more
  rw [List.append_assoc, List.cons_append, hleft, readOperator, hright, behind_behind]

theorem Reads.read_eq {expr : List Char} {resolve : List Char → Except Fault Value} {c : Chain}
    (h : Reads expr resolve (Token.scan expr) c) : read expr resolve = .ok c := by
  have hread := h none []
  rw [List.append_nil] at hread
  rw [read, hread, readOperator]
  rfl

/-! ## Folding -/

section

variable {now : Operator → Bool} {acc v x : Value} {rest more : List (Operator × Value)}
  {c d : Chain} {op : Operator}

/-- What a fold does with its first operator. -/
theorem fold_cons_cases (h : fold now acc ((op, v) :: rest) = .ok c) :
    (now op = true ∧ ∃ w, apply op acc v = .ok w ∧ fold now w rest = .ok c)
      ∨ (now op = false ∧ ∃ d, fold now v rest = .ok d
        ∧ c = ⟨acc, (op, d.first) :: d.rest⟩) := by
  rw [fold] at h
  split at h
  next hnow =>
    obtain ⟨w, happly, hfold⟩ := exists_of_bind h
    exact Or.inl ⟨hnow, w, happly, hfold⟩
  next hnow =>
    obtain ⟨d, hfold, hc⟩ := exists_of_bind h
    exact Or.inr ⟨Bool.eq_false_iff.mpr hnow, d, hfold, (Except.ok.inj hc).symm⟩

theorem fold_cons_of_now (hop : now op = true) {w : Value} (happly : apply op acc v = .ok w) :
    fold now acc ((op, v) :: rest) = fold now w rest := by
  rw [fold, if_pos hop, happly]
  rfl

theorem fold_cons_of_not_now (hop : now op = false) (hfold : fold now v rest = .ok d) :
    fold now acc ((op, v) :: rest) = .ok ⟨acc, (op, d.first) :: d.rest⟩ := by
  rw [fold, hop, hfold]
  rfl

/-- A fold that leaves one value goes on from it. -/
theorem fold_append (h : fold now acc rest = .ok ⟨x, []⟩) :
    fold now acc (rest ++ more) = fold now x more := by
  induction rest generalizing acc with
  | nil =>
    simp only [fold, Except.ok.injEq, mk.injEq, and_true] at h
    rw [List.nil_append, h]
  | cons pair rest ih =>
    obtain ⟨op, v⟩ := pair
    rcases fold_cons_cases h with ⟨hop, w, happly, hfold⟩ | ⟨-, d, -, hd⟩
    · rw [List.cons_append, fold_cons_of_now hop happly]
      exact ih hfold
    · simp at hd

/-- A fold leaves an operator that it does not pick between the folds of the two sides. -/
theorem fold_append_cons (h : fold now acc rest = .ok c) (hop : now op = false)
    (hmore : fold now v more = .ok d) :
    fold now acc (rest ++ (op, v) :: more) = .ok ⟨c.first, c.rest ++ (op, d.first) :: d.rest⟩ := by
  induction rest generalizing acc c with
  | nil =>
    simp only [fold, Except.ok.injEq] at h
    rw [List.nil_append, fold_cons_of_not_now hop hmore, ← h]
    rfl
  | cons pair rest ih =>
    obtain ⟨op', w⟩ := pair
    rw [List.cons_append]
    rcases fold_cons_cases h with ⟨hop', total, happly, hfold⟩ | ⟨hop', e, hfold, rfl⟩
    · rw [fold_cons_of_now hop' happly]
      exact ih hfold
    · rw [fold_cons_of_not_now hop' (ih hfold)]
      rfl

end

/-! ## Products and sums -/

section

variable {expr : List Char} {resolve : List Char → Except Fault Value} {left right : List Token}
  {a b v : Value} {op : Operator}

/-- Tokens that are read as a chain of which the first pass leaves one value. -/
def ReadsProduct (expr : List Char) (resolve : List Char → Except Fault Value) (tokens : List Token)
    (v : Value) : Prop :=
  ∃ c, Reads expr resolve tokens c
    ∧ fold Operator.isMultiplicative c.first c.rest = .ok ⟨v, []⟩

/-- Tokens that are read as a chain of which the two passes leave one value. -/
def ReadsSum (expr : List Char) (resolve : List Char → Except Fault Value) (tokens : List Token)
    (v : Value) : Prop :=
  ∃ c d, Reads expr resolve tokens c ∧ fold Operator.isMultiplicative c.first c.rest = .ok d
    ∧ fold (!Operator.isMultiplicative ·) d.first d.rest = .ok ⟨v, []⟩

theorem Reads.readsProduct {tokens : List Token} (h : Reads expr resolve tokens ⟨v, []⟩) :
    ReadsProduct expr resolve tokens v :=
  ⟨⟨v, []⟩, h, rfl⟩

theorem ReadsProduct.times (hleft : ReadsProduct expr resolve left a)
    (hright : Reads expr resolve right ⟨b, []⟩) (hop : op.isMultiplicative = true)
    (happly : apply op a b = .ok v) :
    ReadsProduct expr resolve (left ++ .operator op :: right) v := by
  obtain ⟨c, hreads, hfold⟩ := hleft
  refine ⟨_, hreads.append hright op, ?_⟩
  rw [fold_append hfold, fold_cons_of_now hop happly, fold]

theorem ReadsProduct.readsSum {tokens : List Token} (h : ReadsProduct expr resolve tokens v) :
    ReadsSum expr resolve tokens v := by
  obtain ⟨c, hreads, hfold⟩ := h
  exact ⟨c, ⟨v, []⟩, hreads, hfold, rfl⟩

theorem ReadsSum.plus (hleft : ReadsSum expr resolve left a)
    (hright : ReadsProduct expr resolve right b) (hop : op.isMultiplicative = false)
    (happly : apply op a b = .ok v) : ReadsSum expr resolve (left ++ .operator op :: right) v := by
  obtain ⟨c, d, hreads, hproducts, hsum⟩ := hleft
  obtain ⟨c', hreads', hproduct⟩ := hright
  refine ⟨_, _, hreads.append hreads' op, fold_append_cons hproducts hop hproduct, ?_⟩
  rw [fold_append hsum, fold_cons_of_now (by rw [hop]; rfl) happly, fold]

theorem ReadsSum.evaluateFlat_eq (h : ReadsSum expr resolve (Token.scan expr) v) :
    evaluateFlat resolve expr = .ok v := by
  obtain ⟨c, d, hreads, hproducts, hsum⟩ := h
  rw [evaluateFlat, hreads.read_eq]
  show Chain.value c = _
  rw [value, hproducts]
  show (fold _ d.first d.rest >>= _) = _
  rw [hsum]
  rfl

end

/-! ## What chains give -/

/-- Whether a value holds other values. -/
def isCompound : Value → Bool
  | .array _ => true
  | .object _ => true
  | _ => false

theorem isCompound_toValue (n : Numeric) : isCompound n.toValue = false := by
  cases n <;> rfl

/-- Arithmetic gives numbers only. -/
theorem exists_toValue_of_compute {op : Operator} {lhs rhs v : Value}
    (h : compute op lhs rhs = .ok v) : ∃ n : Numeric, v = n.toValue := by
  unfold compute at h
  obtain ⟨a, -, hcompute⟩ := exists_of_bind h
  obtain ⟨b, -, hvalue⟩ := exists_of_bind hcompute
  cases op with
  | add => exact ⟨_, (Except.ok.inj hvalue).symm⟩
  | sub => exact ⟨_, (Except.ok.inj hvalue).symm⟩
  | mul => exact ⟨_, (Except.ok.inj hvalue).symm⟩
  | div =>
    dsimp only at hvalue
    split at hvalue
    · simp [throw, throwThe, MonadExceptOf.throw] at hvalue
    · exact ⟨.float _, (Except.ok.inj hvalue).symm⟩
  | rem =>
    dsimp only at hvalue
    split at hvalue
    · simp [throw, throwThe, MonadExceptOf.throw] at hvalue
    · exact ⟨_, (Except.ok.inj hvalue).symm⟩

/-- No operator gives an array or object. -/
theorem isCompound_of_apply {op : Operator} {lhs rhs v : Value} (h : apply op lhs rhs = .ok v) :
    isCompound v = false := by
  unfold apply at h
  split at h
  · rw [← Except.ok.inj h]
    rfl
  · obtain ⟨n, rfl⟩ := exists_toValue_of_compute h
    exact isCompound_toValue n

section

variable {now : Operator → Bool} {acc : Value} {rest : List (Operator × Value)} {c : Chain}

/-- A fold keeps only operators that it does not pick, of those that were there. -/
theorem not_now_of_mem_fold (h : fold now acc rest = .ok c) :
    ∀ p ∈ c.rest, now p.1 = false ∧ ∃ q ∈ rest, q.1 = p.1 := by
  induction rest generalizing acc c with
  | nil =>
    simp only [fold, Except.ok.injEq] at h
    rw [← h]
    simp
  | cons pair rest ih =>
    obtain ⟨op, v⟩ := pair
    have htail : ∀ {acc c}, fold now acc rest = .ok c →
        ∀ p ∈ c.rest, now p.1 = false ∧ ∃ q ∈ (op, v) :: rest, q.1 = p.1 := by
      intro acc c hfold p hp
      obtain ⟨hnow, q, hq, heq⟩ := ih hfold p hp
      exact ⟨hnow, q, List.mem_cons_of_mem _ hq, heq⟩
    rcases fold_cons_cases h with ⟨-, w, -, hfold⟩ | ⟨hop, d, hfold, rfl⟩
    · exact htail hfold
    · intro p hp
      rcases List.mem_cons.mp hp with rfl | hmem
      · exact ⟨hop, (op, v), List.mem_cons_self, rfl⟩
      · exact htail hfold p hmem

/-- A fold of more than one value leaves more than one, or what an operator gives. -/
theorem isCompound_of_fold (h : fold now acc rest = .ok c) :
    c = ⟨acc, rest⟩ ∧ rest = [] ∨ c.rest ≠ [] ∨ isCompound c.first = false := by
  induction rest generalizing acc c with
  | nil =>
    simp only [fold, Except.ok.injEq] at h
    exact Or.inl ⟨h.symm, rfl⟩
  | cons pair rest ih =>
    obtain ⟨op, v⟩ := pair
    rcases fold_cons_cases h with ⟨-, w, happly, hfold⟩ | ⟨-, d, -, rfl⟩
    · rcases ih hfold with ⟨rfl, -⟩ | hrest
      · exact Or.inr (Or.inr (isCompound_of_apply happly))
      · exact Or.inr hrest
    · exact Or.inr (Or.inl (by simp))

end

/-- The value of a chain is what the two passes leave. -/
theorem exists_of_value {c : Chain} {v : Value} (h : c.value = .ok v) :
    ∃ sum total, fold Operator.isMultiplicative c.first c.rest = .ok sum
      ∧ fold (!Operator.isMultiplicative ·) sum.first sum.rest = .ok total ∧ v = total.first := by
  obtain ⟨sum, hsum, hpass⟩ := exists_of_bind h
  obtain ⟨total, htotal, hvalue⟩ := exists_of_bind hpass
  exact ⟨sum, total, hsum, htotal, (Except.ok.inj hvalue).symm⟩

/-- The two passes leave one value: an operator that both of them leave would be multiplicative and not
    multiplicative. -/
theorem rest_eq_nil_of_folds {c sum total : Chain}
    (hsum : fold Operator.isMultiplicative c.first c.rest = .ok sum)
    (htotal : fold (!Operator.isMultiplicative ·) sum.first sum.rest = .ok total) :
    total.rest = [] := by
  rw [List.eq_nil_iff_forall_not_mem]
  intro p hp
  obtain ⟨hnow, q, hq, heq⟩ := not_now_of_mem_fold htotal p hp
  obtain ⟨hnow', -⟩ := not_now_of_mem_fold hsum q hq
  rw [heq] at hnow'
  rw [hnow'] at hnow
  exact absurd hnow (by decide)

/-- A chain of more than one value is no array or object. -/
theorem isCompound_of_value {c : Chain} {v : Value} (hrest : c.rest ≠ []) (h : c.value = .ok v) :
    isCompound v = false := by
  obtain ⟨sum, total, hsum, htotal, rfl⟩ := exists_of_value h
  rcases isCompound_of_fold htotal with ⟨rfl, hsumRest⟩ | hne | hsimple
  · rcases isCompound_of_fold hsum with ⟨-, hnil⟩ | hne | hsimple
    · exact absurd hnil hrest
    · exact absurd hsumRest hne
    · exact hsimple
  · exact absurd (rest_eq_nil_of_folds hsum htotal) hne
  · exact hsimple

/-- Reading on keeps the chain that has been read, and behind an operator there is a value. -/
theorem read_extends {expr : List Char} {resolve : List Char → Except Fault Value}
    (tokens : List Token) :
    (∀ chain op negative c, readOperand expr resolve (some (chain, op)) negative tokens = .ok c →
        ∃ v more, c = ⟨chain.first, chain.rest ++ (op, v) :: more⟩)
      ∧ ∀ chain c, readOperator expr resolve chain tokens = .ok c →
        ∃ more, c = ⟨chain.first, chain.rest ++ more⟩ := by
  induction tokens with
  | nil =>
    refine ⟨?_, ?_⟩
    · intro chain op negative c h
      rw [readOperand] at h
      exact absurd h (by simp)
    · intro chain c h
      rw [readOperator, Except.ok.injEq] at h
      exact ⟨[], by rw [← h, List.append_nil]⟩
  | cons token tokens ih =>
    cases token with
    | operator op' =>
      refine ⟨?_, ?_⟩
      · intro chain op negative c h
        rw [readOperand] at h
        split at h
        · exact ih.1 chain op _ c h
        · exact absurd h (by simp)
      · intro chain c h
        rw [readOperator] at h
        obtain ⟨v, more, hc⟩ := ih.1 chain op' false c h
        exact ⟨_, hc⟩
    | operand text =>
      refine ⟨?_, ?_⟩
      · intro chain op negative c h
        rw [readOperand_operand] at h
        obtain ⟨v, -, hsign⟩ := exists_of_bind h
        obtain ⟨w, -, hrest⟩ := exists_of_bind hsign
        obtain ⟨more, hc⟩ := ih.2 _ c hrest
        exact ⟨w, more, by simp [hc, behind]⟩
      · intro chain c h
        rw [readOperator] at h
        exact absurd h (by simp)

/-- Reading depends on the values of the operands only. -/
theorem read_congr {expr : List Char} {resolve resolve' : List Char → Except Fault Value}
    {tokens : List Token} (h : ∀ text, .operand text ∈ tokens → resolve text = resolve' text) :
    (∀ done negative, readOperand expr resolve done negative tokens
        = readOperand expr resolve' done negative tokens)
      ∧ ∀ chain, readOperator expr resolve chain tokens = readOperator expr resolve' chain tokens := by
  induction tokens with
  | nil =>
    refine ⟨fun done negative => ?_, fun chain => rfl⟩
    cases done <;> rfl
  | cons token tokens ih =>
    obtain ⟨ihOperand, ihOperator⟩ := ih fun text hmem => h text (List.mem_cons_of_mem _ hmem)
    cases token with
    | operator op =>
      refine ⟨?_, ?_⟩
      · intro done negative
        rw [readOperand, readOperand, ihOperand]
      · intro chain
        rw [readOperator, readOperator, ihOperand]
    | operand text =>
      refine ⟨?_, ?_⟩
      · intro done negative
        have htail : (fun w => readOperator expr resolve (behind done ⟨w, []⟩) tokens)
            = fun w => readOperator expr resolve' (behind done ⟨w, []⟩) tokens :=
          funext fun w => ihOperator _
        rw [readOperand_operand, readOperand_operand, h text List.mem_cons_self, htail]
      · intro chain
        rw [readOperator, readOperator]

end Chain

theorem evaluateFlat_congr {text : List Char} {resolve resolve' : List Char → Except Fault Value}
    (h : ∀ operand, .operand operand ∈ Token.scan text → resolve operand = resolve' operand) :
    evaluateFlat resolve text = evaluateFlat resolve' text := by
  rw [evaluateFlat, evaluateFlat, Chain.read, Chain.read, (Chain.read_congr h).1]

/-! ## Expressions of one operand -/

section

variable {text operand : List Char} {resolve : List Char → Except Fault Value}

theorem evaluateFlat_operand (h : Token.scan text = [.operand operand]) :
    evaluateFlat resolve text = resolve operand := by
  rw [evaluateFlat, Chain.read, h, Chain.readOperand_operand]
  cases resolve operand <;> rfl

theorem evaluateFlat_negative (h : Token.scan text = [.operator .sub, .operand operand]) :
    evaluateFlat resolve text = (resolve operand).bind negate := by
  rw [evaluateFlat, Chain.read, h, Chain.readOperand, if_pos rfl, Chain.readOperand_operand]
  cases resolve operand with
  | error f => rfl
  | ok v =>
    show ((negate v).bind _ >>= _) = negate v
    cases negate v <;> rfl

/-- A text of more than one token that begins with an operand gives no array or object. -/
theorem isCompound_of_evaluateFlat {token : Token} {tokens : List Token} {v : Value}
    (hscan : Token.scan text = .operand operand :: token :: tokens)
    (h : evaluateFlat resolve text = .ok v) : Chain.isCompound v = false := by
  rw [evaluateFlat, Chain.read, hscan, Chain.readOperand_operand] at h
  obtain ⟨c, hchain, hvalue⟩ := exists_of_bind h
  obtain ⟨w, -, hsign⟩ := exists_of_bind hchain
  obtain ⟨signed, -, hread⟩ := exists_of_bind hsign
  cases token with
  | operand text => exact absurd hread (by simp [Chain.readOperator])
  | operator op =>
    rw [Chain.readOperator] at hread
    obtain ⟨v, more, rfl⟩ := (Chain.read_extends tokens).1 _ _ _ c hread
    exact Chain.isCompound_of_value (by simp [Chain.behind]) hvalue

end

end ConfigLang.Expr
