set_option autoImplicit false

/-! # Blank characters

The blank characters are those with the White_Space property. Trimming removes them from both ends
of a text; joining lines turns every run of blanks that holds a line break into one space. Neither
makes a text longer. -/

namespace ConfigLang.Text

/-- The characters with the White_Space property. -/
def isBlank (c : Char) : Bool :=
  let n := c.toNat
  (0x09 ≤ n && n ≤ 0x0D) || n == 0x20 || n == 0x85 || n == 0xA0 || n == 0x1680
    || (0x2000 ≤ n && n ≤ 0x200A) || n == 0x2028 || n == 0x2029 || n == 0x202F || n == 0x205F
    || n == 0x3000

/-- Letters and digits of ASCII are not blank. -/
theorem isBlank_of_isAlphanum {c : Char} (h : c.isAlphanum = true) : isBlank c = false := by
  have hrange : 48 ≤ c.toNat ∧ c.toNat ≤ 122 := by
    delta Char.isAlphanum Char.isAlpha Char.isUpper Char.isLower Char.isDigit at h
    simp only [UInt32.le_iff_toNat_le, Bool.or_eq_true, Bool.and_eq_true, decide_eq_true_eq] at h
    rcases h with (h | h) | h
    · exact ⟨Nat.le_trans (by decide) h.1, Nat.le_trans h.2 (by decide)⟩
    · exact ⟨Nat.le_trans (by decide) h.1, Nat.le_trans h.2 (by decide)⟩
    · exact ⟨Nat.le_trans (by decide) h.1, Nat.le_trans h.2 (by decide)⟩
  simp only [isBlank, Bool.or_eq_false_iff, Bool.and_eq_false_iff, decide_eq_false_iff_not,
    beq_eq_false_iff_ne]
  omega

/-- Characters are told apart by any class that one of them belongs to and the other does not. -/
theorem ne_of_class {p : Char → Bool} {c d : Char} (hc : p c = true) (hd : p d = false) :
    c ≠ d := by
  rintro rfl
  rw [hc] at hd
  exact absurd hd (by decide)

/-! ## Trimming -/

def trimStart (text : List Char) : List Char :=
  text.dropWhile isBlank

def trimEnd (text : List Char) : List Char :=
  (text.reverse.dropWhile isBlank).reverse

/-- Remove the blanks at both ends. -/
def trim (text : List Char) : List Char :=
  trimEnd (trimStart text)

theorem length_trimStart_le (text : List Char) : (trimStart text).length ≤ text.length :=
  (List.dropWhile_sublist _).length_le

theorem length_trimEnd_le (text : List Char) : (trimEnd text).length ≤ text.length := by
  simpa [trimEnd] using (List.dropWhile_sublist (p := isBlank) (l := text.reverse)).length_le

theorem length_trim_le (text : List Char) : (trim text).length ≤ text.length :=
  Nat.le_trans (length_trimEnd_le _) (length_trimStart_le _)

theorem trimStart_cons_of_not_blank {c : Char} (h : isBlank c = false) (rest : List Char) :
    trimStart (c :: rest) = c :: rest := by
  simp [trimStart, h]

theorem trimEnd_concat_of_not_blank {c : Char} (h : isBlank c = false) (front : List Char) :
    trimEnd (front ++ [c]) = front ++ [c] := by
  simp [trimEnd, h]

/-- A text that begins and ends with no blank stays as it is. -/
theorem trim_eq_self {text : List Char} (hhead : ∀ c ∈ text.head?, isBlank c = false)
    (hlast : ∀ c ∈ text.getLast?, isBlank c = false) : trim text = text := by
  rcases List.eq_nil_or_concat text with rfl | ⟨front, last, rfl⟩
  · rfl
  · rw [List.concat_eq_append] at *
    have hstart : trimStart (front ++ [last]) = front ++ [last] := by
      cases front with
      | nil => exact trimStart_cons_of_not_blank (hlast last (by simp)) []
      | cons c rest => exact trimStart_cons_of_not_blank (hhead c (by simp)) _
    rw [trim, hstart]
    exact trimEnd_concat_of_not_blank (hlast last (by simp)) front

theorem trim_enclosed {first last : Char} (hfirst : isBlank first = false)
    (hlast : isBlank last = false) (inner : List Char) :
    trim (first :: (inner ++ [last])) = first :: (inner ++ [last]) := by
  apply trim_eq_self
  · intro c hc
    obtain rfl := Option.some.inj hc
    exact hfirst
  · intro c hc
    rw [← List.cons_append, List.getLast?_concat] at hc
    obtain rfl := Option.some.inj hc
    exact hlast

theorem trim_of_no_blank {text : List Char} (h : ∀ c ∈ text, isBlank c = false) :
    trim text = text :=
  trim_eq_self (fun c hc => h c (List.mem_of_mem_head? hc))
    fun c hc => h c (List.mem_of_mem_getLast? hc)

/-- Trimming at the end removes blanks at the end. -/
theorem exists_trimEnd_append (text : List Char) :
    ∃ back, text = trimEnd text ++ back ∧ ∀ c ∈ back, isBlank c = true := by
  refine ⟨(text.reverse.takeWhile isBlank).reverse, ?_, ?_⟩
  · rw [trimEnd, ← List.reverse_append, List.takeWhile_append_dropWhile, List.reverse_reverse]
  · intro c hc
    exact List.all_eq_true.mp List.all_takeWhile c (List.mem_reverse.mp hc)

theorem getLast_trimEnd (text : List Char) : ∀ c ∈ (trimEnd text).getLast?, isBlank c = false := by
  intro c hc
  have hhead := List.head?_dropWhile_not isBlank text.reverse
  rw [trimEnd, List.getLast?_reverse] at hc
  rwa [hc] at hhead

/-- A text is what trimming leaves, with blanks around it. -/
theorem exists_trim_append (text : List Char) :
    ∃ front back, text = front ++ trim text ++ back ∧ ∀ c ∈ back, isBlank c = true := by
  obtain ⟨back, hend, hblank⟩ := exists_trimEnd_append (trimStart text)
  refine ⟨text.takeWhile isBlank, back, ?_, hblank⟩
  rw [trim, List.append_assoc, ← hend]
  exact List.takeWhile_append_dropWhile.symm

theorem infix_trim (text : List Char) : trim text <:+: text := by
  obtain ⟨front, back, heq, -⟩ := exists_trim_append text
  exact ⟨front, back, heq.symm⟩

theorem trimStart_append_of_blank {lead : List Char} (h : ∀ c ∈ lead, isBlank c = true)
    (text : List Char) : trimStart (lead ++ text) = trimStart text :=
  List.dropWhile_append_of_pos h

theorem trimEnd_append_of_blank {tail : List Char} (h : ∀ c ∈ tail, isBlank c = true)
    (text : List Char) : trimEnd (text ++ tail) = trimEnd text := by
  have hrev : ∀ c ∈ tail.reverse, isBlank c = true := fun c hc => h c (List.mem_reverse.mp hc)
  rw [trimEnd, List.reverse_append, List.dropWhile_append_of_pos hrev, trimEnd]

/-- Blanks before a text do not count. -/
theorem trim_append_left {lead : List Char} (h : ∀ c ∈ lead, isBlank c = true)
    (text : List Char) : trim (lead ++ text) = trim text := by
  rw [trim, trimStart_append_of_blank h, trim]

theorem trim_of_blank {text : List Char} (h : ∀ c ∈ text, isBlank c = true) : trim text = [] := by
  rw [← List.append_nil text, trim_append_left h]
  rfl

/-- Blanks behind a text do not count. -/
theorem trim_append_right {tail : List Char} (h : ∀ c ∈ tail, isBlank c = true)
    (text : List Char) : trim (text ++ tail) = trim text := by
  have htail : trimStart tail = [] := by simpa [trimStart] using trimStart_append_of_blank h []
  have hsplit : trimStart (text ++ tail)
      = if (trimStart text).isEmpty then trimStart tail else trimStart text ++ tail :=
    List.dropWhile_append
  rw [trim, hsplit, trim]
  split
  next hnil => rw [htail, List.isEmpty_iff.mp hnil]
  next => exact trimEnd_append_of_blank h _

theorem trim_trim (text : List Char) : trim (trim text) = trim text := by
  obtain ⟨back, hend, hback⟩ := exists_trimEnd_append (trimStart text)
  have hfront : ∀ c ∈ text.takeWhile isBlank, isBlank c = true :=
    List.all_eq_true.mp List.all_takeWhile
  calc trim (trim text)
      = trim (trim text ++ back) := (trim_append_right hback _).symm
    _ = trim (trimStart text) := congrArg trim hend.symm
    _ = trim (text.takeWhile isBlank ++ trimStart text) := (trim_append_left hfront _).symm
    _ = trim text := by rw [trimStart, List.takeWhile_append_dropWhile]

/-- Trimming keeps a first character that is not blank. -/
theorem trim_cons_of_not_blank {c : Char} (h : isBlank c = false) (rest : List Char) :
    ∃ rest', trim (c :: rest) = c :: rest' := by
  obtain ⟨back, hend, hblank⟩ := exists_trimEnd_append (c :: rest)
  rw [trim, trimStart_cons_of_not_blank h]
  cases hkept : trimEnd (c :: rest) with
  | nil =>
    rw [hkept, List.nil_append] at hend
    rw [hblank c (by rw [← hend]; exact List.mem_cons_self)] at h
    exact absurd h (by decide)
  | cons d rest' =>
    rw [hkept, List.cons_append, List.cons.injEq] at hend
    exact ⟨rest', by rw [hend.1]⟩

theorem trim_ne_nil {text : List Char} {c : Char} (hc : c ∈ text) (h : isBlank c = false) :
    trim text ≠ [] := by
  obtain ⟨front, back, rfl⟩ := List.append_of_mem hc
  have hback : ∀ rest, trimEnd (rest ++ c :: back) ≠ [] := by
    intro rest hnil
    rw [trimEnd, List.reverse_eq_nil_iff] at hnil
    have hall := List.dropWhile_sublist (p := isBlank) (l := (rest ++ c :: back).reverse)
    have hmem : c ∈ (rest ++ c :: back).reverse := by simp
    rw [← List.takeWhile_append_dropWhile (p := isBlank) (l := (rest ++ c :: back).reverse), hnil,
      List.append_nil] at hmem
    rw [List.all_eq_true.mp List.all_takeWhile c hmem] at h
    exact absurd h (by decide)
  have hstart : ∃ rest, trimStart (front ++ c :: back) = rest ++ c :: back := by
    rw [trimStart, List.dropWhile_append]
    split
    · rw [List.dropWhile_cons_of_neg (by simp [h])]
      exact ⟨[], rfl⟩
    · exact ⟨_, rfl⟩
  obtain ⟨rest, hrest⟩ := hstart
  rw [trim, hrest]
  exact hback rest

/-! ## Line breaks -/

/-- A run of blanks once lines are joined: one space if it held a line break. -/
def settleRun (run : List Char) : List Char :=
  if run.contains '\n' then [' '] else run

/-- Join lines, where `run` holds the blanks read since the last other character. -/
def joinLinesFrom (run : List Char) : List Char → List Char
  | [] => settleRun run
  | c :: rest =>
    if isBlank c then joinLinesFrom (run ++ [c]) rest
    else settleRun run ++ c :: joinLinesFrom [] rest

/-- Write one space for every maximal run of blanks that holds a line break. -/
def joinLines (text : List Char) : List Char :=
  joinLinesFrom [] text

theorem joinLinesFrom_of_not_mem {run text : List Char} (hrun : '\n' ∉ run) (h : '\n' ∉ text) :
    joinLinesFrom run text = run ++ text := by
  have hsettle : ∀ {run : List Char}, '\n' ∉ run → settleRun run = run := by
    intro run hrun
    rw [settleRun, if_neg (by simpa using hrun)]
  induction text generalizing run with
  | nil => rw [joinLinesFrom, hsettle hrun, List.append_nil]
  | cons c rest ih =>
    rw [List.mem_cons, not_or] at h
    rw [joinLinesFrom]
    split
    · have hmore : '\n' ∉ run ++ [c] := by
        rw [List.mem_append, List.mem_singleton, not_or]
        exact ⟨hrun, h.1⟩
      rw [ih hmore h.2, List.append_assoc, List.singleton_append]
    · rw [hsettle hrun, ih List.not_mem_nil h.2, List.nil_append]

/-- A text of one line stays as it is. -/
theorem joinLines_of_not_mem {text : List Char} (h : '\n' ∉ text) : joinLines text = text :=
  joinLinesFrom_of_not_mem List.not_mem_nil h

theorem isBlank_of_mem_settleRun {run : List Char} (h : ∀ c ∈ run, isBlank c = true) :
    ∀ c ∈ settleRun run, isBlank c = true := by
  unfold settleRun
  split
  · intro c hc
    rw [List.mem_singleton.mp hc]
    rfl
  · exact h

theorem settleRun_eq_nil {run : List Char} (h : settleRun run = []) : run = [] := by
  unfold settleRun at h
  split at h
  · exact absurd h (List.cons_ne_nil _ _)
  · exact h

/-- Where a character stands that lies behind a part of a text or in it. -/
theorem append_eq_append_cons {x y front back : List Char} {c : Char}
    (h : x ++ y = front ++ c :: back) :
    (∃ part, front = x ++ part ∧ y = part ++ c :: back)
      ∨ ∃ part, x = front ++ c :: part ∧ back = part ++ y := by
  rcases List.append_eq_append_iff.mp h with ⟨part, hfront, hy⟩ | ⟨part, hx, hback⟩
  · exact Or.inl ⟨part, hfront, hy⟩
  · cases part with
    | nil => exact Or.inl ⟨[], by rw [hx, List.append_nil, List.append_nil], hback.symm⟩
    | cons d part =>
      rw [List.cons_append, List.cons.injEq] at hback
      obtain ⟨rfl, htail⟩ := hback
      exact Or.inr ⟨part, hx, htail⟩

/-- A character that is not blank stands between what the two sides of it become. -/
theorem joinLinesFrom_eq_append_cons {run text front back : List Char} {c : Char}
    (hc : isBlank c = false) (hrun : ∀ d ∈ run, isBlank d = true)
    (h : joinLinesFrom run text = front ++ c :: back) :
    ∃ front' back', text = front' ++ c :: back' ∧ joinLinesFrom run front' = front
      ∧ joinLines back' = back := by
  induction text generalizing run front with
  | nil =>
    have hmem : c ∈ settleRun run := by
      rw [joinLinesFrom] at h
      simp [h]
    rw [isBlank_of_mem_settleRun hrun c hmem] at hc
    exact absurd hc (by decide)
  | cons d rest ih =>
    rw [joinLinesFrom] at h
    split at h
    next hd =>
      have hmore : ∀ b ∈ run ++ [d], isBlank b = true := by
        intro b hb
        rcases List.mem_append.mp hb with hmem | hlast
        · exact hrun b hmem
        · rw [List.mem_singleton.mp hlast]
          exact hd
      obtain ⟨front', back', rfl, hfront, hback⟩ := ih hmore h
      refine ⟨d :: front', back', rfl, ?_, hback⟩
      rw [joinLinesFrom, if_pos hd]
      exact hfront
    next hd =>
      rcases append_eq_append_cons h with ⟨tail, rfl, htail⟩ | ⟨part, hsettle, -⟩
      · cases tail with
        | nil =>
          obtain ⟨rfl, hback⟩ := List.cons.inj htail
          exact ⟨[], rest, rfl, by rw [joinLinesFrom, List.append_nil], hback⟩
        | cons b tail =>
          obtain ⟨rfl, hrest⟩ := List.cons.inj htail
          obtain ⟨front', back', rfl, hfront, hback⟩ :=
            ih (fun _ hmem => absurd hmem List.not_mem_nil) hrest
          refine ⟨d :: front', back', rfl, ?_, hback⟩
          rw [joinLinesFrom, if_neg hd, hfront]
      · -- the run before `d` is blank, and `c` is not
        have hmem : c ∈ settleRun run := by simp [hsettle]
        rw [isBlank_of_mem_settleRun hrun c hmem] at hc
        exact absurd hc (by decide)

theorem joinLines_eq_append_cons {text front back : List Char} {c : Char} (hc : isBlank c = false)
    (h : joinLines text = front ++ c :: back) :
    ∃ front' back', text = front' ++ c :: back' ∧ joinLines front' = front
      ∧ joinLines back' = back :=
  joinLinesFrom_eq_append_cons hc (fun _ hmem => absurd hmem List.not_mem_nil) h

theorem joinLinesFrom_eq_nil {run text : List Char} (h : joinLinesFrom run text = []) :
    run = [] ∧ text = [] := by
  induction text generalizing run with
  | nil => exact ⟨settleRun_eq_nil h, rfl⟩
  | cons c rest ih =>
    rw [joinLinesFrom] at h
    split at h
    · exact absurd (ih h).1 (by simp)
    · exact absurd h (by simp)

/-- A word without blanks at the beginning stays there. -/
theorem joinLines_eq_append {text word back : List Char} (hword : ∀ c ∈ word, isBlank c = false)
    (h : joinLines text = word ++ back) : ∃ back', text = word ++ back' ∧ joinLines back' = back := by
  induction word generalizing text with
  | nil => exact ⟨text, rfl, h⟩
  | cons c word ih =>
    obtain ⟨front, rest, rfl, hfront, hrest⟩ :=
      @joinLines_eq_append_cons _ [] _ c (hword c List.mem_cons_self) h
    obtain ⟨-, rfl⟩ := joinLinesFrom_eq_nil hfront
    obtain ⟨back', rfl, hback⟩ := ih (fun d hd => hword d (List.mem_cons_of_mem _ hd)) hrest
    exact ⟨back', rfl, hback⟩

theorem mem_joinLinesFrom {run text : List Char} {c : Char} (hc : isBlank c = false)
    (h : c ∈ text) : c ∈ joinLinesFrom run text := by
  induction text generalizing run with
  | nil => exact absurd h List.not_mem_nil
  | cons d rest ih =>
    rw [joinLinesFrom]
    split
    next hd =>
      rcases List.mem_cons.mp h with rfl | hmem
      · rw [hc] at hd
        exact absurd hd (by decide)
      · exact ih hmem
    next =>
      rcases List.mem_cons.mp h with rfl | hmem
      · simp
      · exact List.mem_append_right _ (List.mem_cons_of_mem _ (ih hmem))

theorem length_settleRun_le (run : List Char) : (settleRun run).length ≤ run.length := by
  unfold settleRun
  split
  next h =>
    cases run with
    | nil => simp at h
    | cons c rest => simp
  next => exact Nat.le_refl _

theorem length_joinLinesFrom_le (run text : List Char) :
    (joinLinesFrom run text).length ≤ run.length + text.length := by
  induction text generalizing run with
  | nil => simpa [joinLinesFrom] using length_settleRun_le run
  | cons c rest ih =>
    have hrun := length_settleRun_le run
    unfold joinLinesFrom
    split
    · have := ih (run ++ [c])
      simp only [List.length_append, List.length_cons, List.length_nil] at this ⊢
      omega
    · have := ih []
      simp only [List.length_append, List.length_cons, List.length_nil] at this ⊢
      omega

theorem length_joinLines_le (text : List Char) : (joinLines text).length ≤ text.length := by
  simpa [joinLines] using length_joinLinesFrom_le [] text

end ConfigLang.Text
