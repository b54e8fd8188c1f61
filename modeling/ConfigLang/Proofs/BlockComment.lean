import ConfigLang.Scan.Comment

set_option autoImplicit false

/-! # Block comments in parts of a text

A text that leaves no block comment open can be cut from what follows it: removing the block
comments of both parts removes those of the whole (`stripBlocks_append`), and its lines are those of
both parts (`uncommentedLines_append`). -/

namespace ConfigLang.Scan

/-- What follows a character `c` in a text that goes on, where `p` says which character `c` is. -/
theorem head?_append_ne {p : Prop} {d : Char} {text rest : List Char}
    (h : ∀ tail, p → text = d :: tail → False) (hrest : p → text = [] → rest.head? ≠ some d) :
    p → (text ++ rest).head? ≠ some d := by
  intro hp hhead
  cases text with
  | nil => exact hrest hp rfl hhead
  | cons c tail =>
    rw [List.cons_append, List.head?_cons, Option.some_inj] at hhead
    exact h tail hp (by rw [hhead])

/-! ## The end of a block -/

theorem behindBlock?_cons {c : Char} {rest : List Char} (h : c = '*' → rest.head? ≠ some '/') :
    behindBlock? (c :: rest) = behindBlock? rest := by
  rw [behindBlock?]
  intro rest' hc hrest
  exact h hc (by rw [hrest]; rfl)

/-- A text that closes no block can stand before the end of one. -/
theorem behindBlock?_append {front rest : List Char} (h : ¬ ['*', '/'] <:+: front)
    (hseam : front.getLast? = some '*' → rest.head? ≠ some '/') :
    behindBlock? (front ++ rest) = behindBlock? rest := by
  induction front with
  | nil => rfl
  | cons c front ih =>
    have hfront : ¬ ['*', '/'] <:+: front :=
      fun hin => h (hin.trans (List.suffix_cons c front).isInfix)
    cases front with
    | nil => exact behindBlock?_cons fun hc => hseam (by rw [hc]; rfl)
    | cons d front =>
      have hcons : c = '*' → (d :: front ++ rest).head? ≠ some '/' := by
        intro hc hd
        rw [List.cons_append, List.head?_cons, Option.some_inj] at hd
        exact h ⟨[], front, by rw [hc, hd]; rfl⟩
      rw [List.cons_append, behindBlock?_cons hcons]
      exact ih hfront (by rwa [List.getLast?_cons_cons] at hseam)

theorem behindBlock?_append_of_some {text after : List Char} (h : behindBlock? text = some after)
    (rest : List Char) : behindBlock? (text ++ rest) = some (after ++ rest) := by
  fun_induction behindBlock? text with
  | case1 => exact absurd h (by simp)
  | case2 behind =>
    rw [Option.some_inj] at h
    rw [h]
    rfl
  | case3 c text hends ih =>
    have hne : text ≠ [] := by
      rintro rfl
      exact absurd h (by simp [behindBlock?])
    rw [List.cons_append,
      behindBlock?_cons (head?_append_ne hends fun _ hnil => absurd hnil hne)]
    exact ih h

theorem suffix_behindBlock? {text after : List Char} (h : behindBlock? text = some after) :
    after <:+ text := by
  fun_induction behindBlock? text with
  | case1 => exact absurd h (by simp)
  | case2 behind =>
    rw [Option.some_inj] at h
    exact ⟨['*', '/'], by rw [h]; rfl⟩
  | case3 c text _ ih => exact (ih h).trans (List.suffix_cons c text)

/-! ## Open blocks -/

/-- Whether a text opens a block comment that it does not close. -/
def leavesBlockOpen : List Char → Bool
  | [] => false
  | '/' :: '*' :: rest =>
    match _h : behindBlock? rest with
    | some after => leavesBlockOpen after
    | none => true
  | _ :: rest => leavesBlockOpen rest
termination_by text => text.length
decreasing_by
  · have := length_behindBlock? _h
    simp only [List.length_cons]
    omega
  · simp

theorem stripBlocks_opening (rest : List Char) :
    stripBlocks ('/' :: '*' :: rest)
      = match behindBlock? rest with
        | some after => stripBlocks after
        | none => '/' :: '*' :: rest := by
  rw [stripBlocks]
  split
  next hbehind => rw [hbehind]
  next hbehind => rw [hbehind]

theorem stripBlocks_cons {c : Char} {rest : List Char} (h : c = '/' → rest.head? ≠ some '*') :
    stripBlocks (c :: rest) = c :: stripBlocks rest := by
  rw [stripBlocks]
  intro rest' hc hrest
  exact h hc (by rw [hrest]; rfl)

/-- A text in which no block comment opens holds none. -/
theorem stripBlocks_of_no_opening {text : List Char} (h : ¬ ['/', '*'] <:+: text) :
    stripBlocks text = text := by
  fun_induction stripBlocks text with
  | case1 => rfl
  | case2 rest after _ _ => exact absurd ⟨[], rest, rfl⟩ h
  | case3 => rfl
  | case4 c rest _ ih =>
    rw [ih fun hrest => h (hrest.trans (List.suffix_cons c rest).isInfix)]

theorem leavesBlockOpen_of_no_opening {text : List Char} (h : ¬ ['/', '*'] <:+: text) :
    leavesBlockOpen text = false := by
  fun_induction leavesBlockOpen text with
  | case1 => rfl
  | case2 rest after _ _ => exact absurd ⟨[], rest, rfl⟩ h
  | case3 rest _ => exact absurd ⟨[], rest, rfl⟩ h
  | case4 c rest _ ih => exact ih fun hrest => h (hrest.trans (List.suffix_cons c rest).isInfix)

/-- Behind a text that leaves no block open, block comments are removed by themselves. -/
theorem stripBlocks_append {front rest : List Char} (h : leavesBlockOpen front = false)
    (hseam : front.getLast? = some '/' → rest.head? ≠ some '*') :
    stripBlocks (front ++ rest) = stripBlocks front ++ stripBlocks rest := by
  fun_induction leavesBlockOpen front with
  | case1 =>
    rw [stripBlocks]
    rfl
  | case2 text after hbehind ih =>
    have hlast : after.getLast? = some '/' → rest.head? ≠ some '*' := by
      intro hslash
      obtain ⟨block, rfl⟩ := suffix_behindBlock? hbehind
      apply hseam
      have hsplit : '/' :: '*' :: (block ++ after) = ('/' :: '*' :: block) ++ after := rfl
      rw [hsplit, List.getLast?_append, hslash, Option.some_or]
    have hwhole := behindBlock?_append_of_some hbehind rest
    rw [List.cons_append, List.cons_append, stripBlocks_opening, stripBlocks_opening, hbehind,
      hwhole]
    exact ih h hlast
  | case3 text hbehind => exact absurd h (by decide)
  | case4 c text hopens ih =>
    have hlone : c = '/' → text = [] → rest.head? ≠ some '*' := by
      rintro rfl rfl
      exact hseam rfl
    have hcons : c = '/' → text.head? ≠ some '*' := by
      rw [← List.append_nil text]
      exact head?_append_ne hopens fun _ _ => by simp
    rw [List.cons_append, stripBlocks_cons (head?_append_ne hopens hlone), stripBlocks_cons hcons,
      List.cons_append]
    refine congrArg (c :: ·) (ih h fun hslash => hseam ?_)
    rw [List.getLast?_cons, hslash]
    rfl

/-! ## Line breaks -/

/-- Behind a text that leaves no block open, lines are read by themselves. -/
theorem uncommentedLines_append {front : List Char} (h : leavesBlockOpen front = false)
    (rest : List Char) :
    uncommentedLines (front ++ '\n' :: rest) = uncommentedLines front ++ uncommentedLines rest := by
  rw [uncommentedLines, stripBlocks_append h (fun _ => by simp),
    stripBlocks_cons (fun hc => absurd hc (by decide)), Text.splitOn_append_mark, List.map_append]
  rfl

theorem behindBlock?_newline {text : List Char} (h : behindBlock? text = none) :
    behindBlock? (text ++ ['\n']) = none := by
  fun_induction behindBlock? text with
  | case1 => rfl
  | case2 behind => exact absurd h (by simp)
  | case3 c text hends ih =>
    rw [List.cons_append, behindBlock?_cons (head?_append_ne hends fun _ _ => by decide)]
    exact ih h

/-- A line break at the end of a text belongs to no block comment. -/
theorem stripBlocks_newline (text : List Char) :
    stripBlocks (text ++ ['\n']) = stripBlocks text ++ ['\n'] := by
  fun_induction stripBlocks text with
  | case1 =>
    rw [List.nil_append, stripBlocks_cons fun h => absurd h (by decide), stripBlocks]
  | case2 text after hbehind ih =>
    have hwhole := behindBlock?_append_of_some hbehind ['\n']
    rw [List.cons_append, List.cons_append, stripBlocks_opening, hwhole]
    exact ih
  | case3 text hbehind =>
    have hwhole := behindBlock?_newline hbehind
    rw [List.cons_append, List.cons_append, stripBlocks_opening, hwhole]
  | case4 c text hopens ih =>
    rw [List.cons_append, stripBlocks_cons (head?_append_ne hopens fun _ _ => by decide), ih]
    rfl

end ConfigLang.Scan
