import ConfigLang.Proofs.JoinedLines

set_option autoImplicit false

/-! # Lines that reading takes

Reading goes turn by turn: a turn takes one line and, where that line begins a value in brackets or
braces, those below it until the value is closed or no line is left (`EndsAt`). Here the lines keep
their places in the document, so that it can be said which of them a turn takes (`Turn`, `Run`).
Main statement: reading comes to an end after no more turns than there are lines, and its turns take
every line just once, in order, up to the end or to the first fault (`readPart_takes_lines`). -/

namespace ConfigLang.Document

open Text

/-! ## Where a value ends -/

/-- The text of a value that begins with `initial` on the line at `start`, as far as it goes with
    the line at `last`: the lines between are trimmed, and those that say nothing are left out. -/
def textUpTo (initial : List Char) (lines : List (List Char)) (start last : Nat) : List Char :=
  ['\n'].intercalate (initial :: solidLines ((lines.take (last + 1)).drop (start + 1)))

/-- Whether a value that begins with `initial` goes on behind `text`: it begins with a bracket or a
    brace, and `text` opens more of them than it closes. -/
def goesOn (initial text : List Char) : Bool :=
  match initial.head? with
  | some '\x7b' => 0 < balance '\x7b' '\x7d' text
  | some '[' => 0 < balance '[' ']' text
  | _ => false

/-- A value that begins with `initial` on the line at `start` ends on the line at `last`: on the
    first one behind which it does not go on, or else on the last line of all. -/
structure EndsAt (initial : List Char) (lines : List (List Char)) (start last : Nat) : Prop where
  start_le : start ≤ last
  last_lt : last < lines.length
  open_before : ∀ j, start ≤ j → j < last → goesOn initial (textUpTo initial lines start j) = true
  closed_or_last :
    goesOn initial (textUpTo initial lines start last) = false ∨ last + 1 = lines.length

section

variable {initial : List Char} {lines : List (List Char)} {start last : Nat}

theorem textUpTo_start (initial : List Char) (lines : List (List Char)) (start : Nat) :
    textUpTo initial lines start start = initial := by
  have hnone : (lines.take (start + 1)).drop (start + 1) = [] :=
    List.drop_eq_nil_of_le (List.length_take_le _ _)
  rw [textUpTo, hnone]
  exact List.intercalate_singleton

theorem textUpTo_succ (initial : List Char) {line : List Char} (hstart : start ≤ last)
    (hline : lines[last + 1]? = some line) :
    textUpTo initial lines start (last + 1)
      = textUpTo initial lines start last ++ (solidLines [line]).flatMap ('\n' :: ·) := by
  have hlength : start + 1 ≤ (lines.take (last + 1)).length := by
    have := (List.getElem?_eq_some_iff.mp hline).1
    rw [List.length_take]
    omega
  rw [textUpTo, textUpTo, List.take_add_one, hline, Option.toList_some,
    List.drop_append_of_le_length hlength, solidLines_append, intercalate_cons_flatMap,
    intercalate_cons_flatMap, List.flatMap_append, List.append_assoc]

/-- A value ends on one line only. -/
theorem EndsAt.unique {last' : Nat} (h : EndsAt initial lines start last)
    (h' : EndsAt initial lines start last') : last = last' := by
  -- Behind the earlier of two ends the value would go on, and there would be lines below it.
  have not_lt {i j : Nat} (hi : EndsAt initial lines start i) (hj : EndsAt initial lines start j) :
      ¬ i < j := by
    intro hlt
    have hopen := hj.open_before i hi.start_le hlt
    have hbelow := hj.last_lt
    rcases hi.closed_or_last with hclosed | hend
    · exact Bool.false_ne_true (hclosed.symm.trans hopen)
    · omega
  exact Nat.le_antisymm (Nat.not_lt.mp (not_lt h' h)) (Nat.not_lt.mp (not_lt h h'))

/-- From a line behind which a value has been open so far, gathering comes to where it ends. -/
theorem exists_endsAt_gatherBlock {opening closing : Char}
    (hmarks : ∀ text, goesOn initial text = decide (0 < balance opening closing text))
    (hstart : start ≤ last) (hlast : last < lines.length)
    (hopen : ∀ j, start ≤ j → j < last → goesOn initial (textUpTo initial lines start j) = true) :
    ∃ last', EndsAt initial lines start last'
      ∧ gatherBlock opening closing (textUpTo initial lines start last) (lines.drop (last + 1))
        = (textUpTo initial lines start last', lines.drop (last' + 1)) := by
  induction hleft : lines.drop (last + 1) generalizing last with
  | nil =>
    have hend : last + 1 = lines.length := by
      have := List.drop_eq_nil_iff.mp hleft
      omega
    exact ⟨last, ⟨hstart, hlast, hopen, .inr hend⟩, by rw [hleft]; rfl⟩
  | cons line rest ih =>
    by_cases hbalance : 0 < balance opening closing (textUpTo initial lines start last)
    · obtain ⟨hline, hrest⟩ : lines[last + 1]? = some line ∧ lines.drop (last + 2) = rest := by
        have hhead := congrArg List.head? hleft
        have htail := congrArg List.tail hleft
        rw [List.head?_drop] at hhead
        rw [List.tail_drop] at htail
        exact ⟨hhead, htail⟩
      have hgoes : goesOn initial (textUpTo initial lines start last) = true := by
        rw [hmarks]
        exact decide_eq_true hbalance
      rw [gatherBlock_of_open hbalance, ← textUpTo_succ initial hstart hline]
      refine ih (by omega) (List.getElem?_eq_some_iff.mp hline).1 (fun j hj hlt => ?_) hrest
      rcases Nat.lt_succ_iff_lt_or_eq.mp hlt with hbefore | rfl
      · exact hopen j hj hbefore
      · exact hgoes
    · have hclosed : goesOn initial (textUpTo initial lines start last) = false := by
        rw [hmarks]
        exact decide_eq_false hbalance
      refine ⟨last, ⟨hstart, hlast, hopen, .inl hclosed⟩, ?_⟩
      rw [gatherBlock_of_balance (Int.not_lt.mp hbalance), hleft]

/-- A value ends on some line, and its whole text is what it has up to there. -/
theorem exists_endsAt (initial : List Char) (hstart : start < lines.length) :
    ∃ last, EndsAt initial lines start last
      ∧ captureBlock initial (lines.drop (start + 1))
        = (textUpTo initial lines start last, lines.drop (last + 1)) := by
  have hbefore : ∀ j, start ≤ j → j < start →
      goesOn initial (textUpTo initial lines start j) = true := fun j hj hlt => by omega
  unfold captureBlock
  split
  next hhead =>
    have hmarks : ∀ text, goesOn initial text = decide (0 < balance '\x7b' '\x7d' text) :=
      fun text => by simp only [goesOn, hhead]
    have h := exists_endsAt_gatherBlock hmarks (Nat.le_refl start) hstart hbefore
    rwa [textUpTo_start] at h
  next hhead =>
    have hmarks : ∀ text, goesOn initial text = decide (0 < balance '[' ']' text) :=
      fun text => by simp only [goesOn, hhead]
    have h := exists_endsAt_gatherBlock hmarks (Nat.le_refl start) hstart hbefore
    rwa [textUpTo_start] at h
  next hbrace hbracket =>
    have hclosed : goesOn initial (textUpTo initial lines start start) = false := by
      unfold goesOn
      split
      next hhead => exact absurd hhead hbrace
      next hhead => exact absurd hhead hbracket
      next => rfl
    exact ⟨start, ⟨Nat.le_refl start, hstart, hbefore, .inl hclosed⟩, by rw [textUpTo_start]⟩

-- the blank line is among those that the value takes, and not in its text
example :
    captureBlock "[".toList (["80,", "", "443 ]", "name = 1"].map String.toList)
      = ("[\n80,\n443 ]".toList, ["name = 1".toList]) := by decide

theorem EndsAt.captureBlock_eq (h : EndsAt initial lines start last) :
    captureBlock initial (lines.drop (start + 1))
      = (textUpTo initial lines start last, lines.drop (last + 1)) := by
  obtain ⟨last', hends, hcapture⟩ := exists_endsAt initial (Nat.lt_of_le_of_lt h.start_le h.last_lt)
  rw [h.unique hends]
  exact hcapture

end

/-! ## Turns -/

/-- A turn of reading, which takes the line at `first` and those below it up to the one at `last`:
    the part and what is built behind it, or the fault that ends reading. -/
inductive Turn (env : Environment) (lines : List (List Char)) (part : Part) (b : Building)
    (first : Nat) : Nat → Except Fault (Part × Building) → Prop where
  | silent {raw : List Char} (hraw : lines[first]? = some raw)
      (hline : Line.ofText part (trim raw) = .silent) :
      Turn env lines part b first first (.ok (part, b))
  | header {raw name : List Char} (hraw : lines[first]? = some raw)
      (hline : Line.ofText part (trim raw) = .header name) :
      Turn env lines part b first first (.ok (part, b.enter name))
  | defaultsHeader {raw : List Char} (hraw : lines[first]? = some raw)
      (hline : Line.ofText part (trim raw) = .defaultsHeader) :
      Turn env lines part b first first (.ok (.defaults, b))
  | malformed {raw : List Char} {cause : Malformed} (hraw : lines[first]? = some raw)
      (hline : Line.ofText part (trim raw) = .malformed cause) :
      Turn env lines part b first first (.error (.malformed cause))
  | statement {raw : List Char} {key : String} {initial : List Char} {last : Nat}
      (hraw : lines[first]? = some raw)
      (hline : Line.ofText part (trim raw) = .statement key initial)
      (hends : EndsAt initial lines first last) :
      Turn env lines part b first last
        ((part.put env b key (textUpTo initial lines first last)).map (part, ·))

/-- Go on behind a turn that has taken the lines up to the one at `last`; `b` is left of a turn that
    fails. -/
def readOn (env : Environment) (lines : List (List Char)) (b : Building) (last : Nat) :
    Except Fault (Part × Building) → Outcome Building
  | .error f => .stopped b f
  | .ok (part, b) => readPart env part b (lines.drop (last + 1))

variable {env : Environment} {lines : List (List Char)} {part : Part} {b : Building}
  {first last : Nat}

namespace Turn

variable {result : Except Fault (Part × Building)}

theorem exists_line (h : Turn env lines part b first last result) :
    ∃ raw, lines[first]? = some raw := by
  cases h with
  | _ hraw => exact ⟨_, hraw⟩

/-- What a turn does, by what the line at `first` says. -/
theorem by_line {raw : List Char} (h : Turn env lines part b first last result)
    (hraw : lines[first]? = some raw) :
    match Line.ofText part (trim raw) with
    | .silent => last = first ∧ result = .ok (part, b)
    | .header name => last = first ∧ result = .ok (part, b.enter name)
    | .defaultsHeader => last = first ∧ result = .ok (.defaults, b)
    | .malformed cause => last = first ∧ result = .error (.malformed cause)
    | .statement key initial =>
      EndsAt initial lines first last
        ∧ result = (part.put env b key (textUpTo initial lines first last)).map (part, ·) := by
  cases h with
  | statement hraw' hline hends =>
    obtain rfl := Option.some.inj (hraw.symm.trans hraw')
    rw [hline]
    exact ⟨hends, rfl⟩
  | _ hraw' hline =>
    obtain rfl := Option.some.inj (hraw.symm.trans hraw')
    rw [hline]
    exact ⟨rfl, rfl⟩

/-- As long as a line is left, there is a turn. -/
theorem exists_of_lt (env : Environment) (part : Part) (b : Building)
    (hfirst : first < lines.length) : ∃ last result, Turn env lines part b first last result := by
  have hraw : lines[first]? = some lines[first] := List.getElem?_eq_getElem hfirst
  cases hline : Line.ofText part (trim lines[first]) with
  | silent => exact ⟨first, _, .silent hraw hline⟩
  | header name => exact ⟨first, _, .header hraw hline⟩
  | defaultsHeader => exact ⟨first, _, .defaultsHeader hraw hline⟩
  | malformed cause => exact ⟨first, _, .malformed hraw hline⟩
  | statement key initial =>
    obtain ⟨last, hends, -⟩ := exists_endsAt initial hfirst
    exact ⟨last, _, .statement hraw hline hends⟩

theorem unique {last' : Nat} {result' : Except Fault (Part × Building)}
    (h : Turn env lines part b first last result)
    (h' : Turn env lines part b first last' result') : last = last' ∧ result = result' := by
  obtain ⟨raw, hraw⟩ := h.exists_line
  have hdone := h.by_line hraw
  have hdone' := h'.by_line hraw
  cases hline : Line.ofText part (trim raw) with
  | statement key initial =>
    rw [hline] at hdone hdone'
    obtain ⟨hends, rfl⟩ := hdone
    obtain ⟨hends', rfl⟩ := hdone'
    obtain rfl := hends.unique hends'
    exact ⟨rfl, rfl⟩
  | _ =>
    rw [hline] at hdone hdone'
    exact ⟨hdone.1.trans hdone'.1.symm, hdone.2.trans hdone'.2.symm⟩

/-- A turn takes the line at `first`, and none beyond the last line. -/
theorem bounds (h : Turn env lines part b first last result) :
    first ≤ last ∧ last < lines.length := by
  cases h with
  | statement hraw hline hends => exact ⟨hends.start_le, hends.last_lt⟩
  | _ hraw => exact ⟨Nat.le_refl first, (List.getElem?_eq_some_iff.mp hraw).1⟩

/-- Reading from a line on is a turn, and then reading from the line below the last that it takes. -/
theorem readPart_eq (h : Turn env lines part b first last result) :
    readPart env part b (lines.drop first) = readOn env lines b last result := by
  have hdrop {raw : List Char} (hraw : lines[first]? = some raw) :
      lines.drop first = raw :: lines.drop (first + 1) := by
    rw [List.drop_eq_getElem?_toList_append, hraw]
    rfl
  cases h with
  | statement hraw hline hends =>
    rw [hdrop hraw, readPart_cons]
    simp only [hline, hends.captureBlock_eq]
    cases part.put env b _ (textUpTo _ lines first last) <;> rfl
  | _ hraw hline =>
    rw [hdrop hraw, readPart_cons, hline]
    rfl

end Turn

/-! ## Runs -/

/-- The places of the lines from `first` to `last`. -/
def places (first last : Nat) : List Nat :=
  List.range' first (last + 1 - first)

/-- Reading from the line at `first` on, turn by turn, until no line is left or a turn fails: the
    places of the lines that each turn takes, and what reading ends with. -/
inductive Run (env : Environment) (lines : List (List Char)) :
    Part → Building → Nat → List (List Nat) → Outcome Building → Prop where
  | finished {part : Part} {b : Building} {first : Nat} (hnone : lines.length ≤ first) :
      Run env lines part b first [] (.done b)
  | stopped {part : Part} {b : Building} {first last : Nat} {f : Fault}
      (hturn : Turn env lines part b first last (.error f)) :
      Run env lines part b first [places first last] (.stopped b f)
  | turned {part part' : Part} {b b' : Building} {first last : Nat} {taken : List (List Nat)}
      {outcome : Outcome Building} (hturn : Turn env lines part b first last (.ok (part', b')))
      (hrun : Run env lines part' b' (last + 1) taken outcome) :
      Run env lines part b first (places first last :: taken) outcome

namespace Run

variable {taken : List (List Nat)} {outcome : Outcome Building}

/-- Reading comes to an end, wherever it begins. -/
theorem exists_taken (env : Environment) (lines : List (List Char)) (part : Part) (b : Building)
    (first : Nat) :
    ∃ taken, Run env lines part b first taken (readPart env part b (lines.drop first)) := by
  by_cases hfirst : first < lines.length
  · obtain ⟨last, result, hturn⟩ := Turn.exists_of_lt env part b hfirst
    rw [hturn.readPart_eq]
    cases result with
    | error f => exact ⟨_, .stopped hturn⟩
    | ok behind =>
      have hbounds := hturn.bounds
      obtain ⟨taken, hrun⟩ := exists_taken env lines behind.1 behind.2 (last + 1)
      exact ⟨_, .turned hturn hrun⟩
  · have hnone := Nat.not_lt.mp hfirst
    rw [List.drop_eq_nil_of_le hnone, readPart_nil]
    exact ⟨[], .finished hnone⟩
termination_by lines.length - first

theorem unique {taken' : List (List Nat)} {outcome' : Outcome Building}
    (h : Run env lines part b first taken outcome)
    (h' : Run env lines part b first taken' outcome') : taken = taken' ∧ outcome = outcome' := by
  induction h generalizing taken' outcome' with
  | finished hnone =>
    cases h' with
    | finished => exact ⟨rfl, rfl⟩
    | _ hturn =>
      have hbounds := hturn.bounds
      omega
  | stopped hturn =>
    cases h' with
    | finished hnone =>
      have hbounds := hturn.bounds
      omega
    | stopped hturn' =>
      obtain ⟨rfl, hresult⟩ := hturn.unique hturn'
      obtain rfl := Except.error.inj hresult
      exact ⟨rfl, rfl⟩
    | turned hturn' => exact absurd (hturn.unique hturn').2 (by simp)
  | turned hturn hrun ih =>
    cases h' with
    | finished hnone =>
      have hbounds := hturn.bounds
      omega
    | stopped hturn' => exact absurd (hturn.unique hturn').2 (by simp)
    | turned hturn' hrun' =>
      obtain ⟨rfl, hresult⟩ := hturn.unique hturn'
      obtain ⟨rfl, rfl⟩ := Prod.mk.inj (Except.ok.inj hresult)
      obtain ⟨rfl, rfl⟩ := ih hrun'
      exact ⟨rfl, rfl⟩

theorem length_le (h : Run env lines part b first taken outcome) :
    taken.length ≤ lines.length - first := by
  induction h with
  | finished => exact Nat.zero_le _
  | stopped hturn =>
    have hbounds := hturn.bounds
    rw [List.length_singleton]
    omega
  | turned hturn hrun ih =>
    have hbounds := hturn.bounds
    rw [List.length_cons]
    omega

end Run

/-- The lines up to `last` and those below it are all lines. -/
theorem places_append (hfirst : first ≤ last) (hlast : last < lines.length) :
    places first last ++ List.range' (last + 1) (lines.length - (last + 1))
      = List.range' first (lines.length - first) := by
  have hsum : first + (last + 1 - first) = last + 1 := by omega
  have hlength : lines.length - first = last + 1 - first + (lines.length - (last + 1)) := by omega
  rw [places, hlength, ← List.range'_append_1, hsum]

/-- The turns of a run take all lines, one after another, or the first of them up to a fault. -/
theorem Run.flatten_taken {taken : List (List Nat)} {outcome : Outcome Building}
    (h : Run env lines part b first taken outcome) :
    taken.flatten <+: List.range' first (lines.length - first)
      ∧ (taken.flatten = List.range' first (lines.length - first)
        ∨ ∃ b' f, outcome = .stopped b' f) := by
  induction h with
  | finished hnone =>
    rw [Nat.sub_eq_zero_of_le hnone]
    exact ⟨List.prefix_refl [], .inl rfl⟩
  | stopped hturn =>
    obtain ⟨hfirst, hlast⟩ := hturn.bounds
    rw [← places_append hfirst hlast, List.flatten_singleton]
    exact ⟨List.prefix_append _ _, .inr ⟨_, _, rfl⟩⟩
  | turned hturn hrun ih =>
    obtain ⟨hfirst, hlast⟩ := hturn.bounds
    rw [← places_append hfirst hlast, List.flatten_cons]
    exact ⟨(List.prefix_append_right_inj _).mpr ih.1, ih.2.imp_left (congrArg _)⟩

/-! ## All lines -/

/-- A value takes the lines up to the first one behind which it does not go on, or else all, and its
    text is what they say. Reading is a run of turns: there is one run from each line on, of no
    more turns than there are lines, and it takes each line just once, in order, up to the end or
    to a fault. -/
theorem readPart_takes_lines (env : Environment) (lines : List (List Char)) :
    (∀ (initial : List Char) (start : Fin lines.length), ∃ last, EndsAt initial lines start last
        ∧ captureBlock initial (lines.drop (start + 1))
          = (textUpTo initial lines start last, lines.drop (last + 1)))
      ∧ ∀ (part : Part) (b : Building) (first : Nat), ∃ taken : List (List Nat),
        (∀ turns outcome, Run env lines part b first turns outcome
            ↔ turns = taken ∧ outcome = readPart env part b (lines.drop first))
          ∧ taken.length ≤ lines.length - first
          ∧ taken.flatten <+: List.range' first (lines.length - first)
          ∧ (taken.flatten = List.range' first (lines.length - first)
            ∨ ∃ b' f, readPart env part b (lines.drop first) = .stopped b' f) := by
  refine ⟨fun initial start => exists_endsAt initial start.isLt, fun part b first => ?_⟩
  obtain ⟨taken, hrun⟩ := Run.exists_taken env lines part b first
  refine ⟨taken, fun turns outcome => ⟨fun h => h.unique hrun, ?_⟩, hrun.length_le,
    hrun.flatten_taken⟩
  rintro ⟨rfl, rfl⟩
  exact hrun

end ConfigLang.Document
