import ConfigLang.Proofs.IntegerExpr

set_option autoImplicit false

/-! # The grammar of expressions

A sum is a row of products between additive operators, a product a row of operands between
multiplicative ones, and an operand is signed, a group around a sum, or a text (`Derives`). Symbols can
be checked against this grammar from left to right, with the groups that are open and whether an operand
has to come next (`Progress`). Main statement: the check finds what the grammar derives
(`derives_iff_run`). In what it derives no group stands next to an operand or another group
(`Progress.separated_of_run`). -/

namespace ConfigLang.Expr

/-- What an expression is made of. -/
inductive Symbol where
  | operand (text : List Char)
  | operator (op : Operator)
  | opening
  | closing
  deriving DecidableEq, Repr

/-- The rows of symbols that are sums, products and operands. -/
inductive Derives : Level → List Symbol → Prop
  | operand (text : List Char) : Derives .operand [.operand text]
  | group {inner : List Symbol} (h : Derives .sum inner) :
    Derives .operand (.opening :: (inner ++ [.closing]))
  | negate {x : List Symbol} (h : Derives .operand x) : Derives .operand (.operator .sub :: x)
  | factor {x : List Symbol} (h : Derives .operand x) : Derives .product x
  | times {op : Operator} {x y : List Symbol} (hop : op.isMultiplicative = true)
    (hx : Derives .product x) (hy : Derives .operand y) : Derives .product (x ++ .operator op :: y)
  | term {x : List Symbol} (h : Derives .product x) : Derives .sum x
  | plus {op : Operator} {x y : List Symbol} (hop : op.isMultiplicative = false)
    (hx : Derives .sum x) (hy : Derives .product y) : Derives .sum (x ++ .operator op :: y)

/-! ## From left to right -/

/-- How far an expression has been read. -/
structure Progress where
  /-- Whether an operand has just been read, or a group. -/
  complete : Bool := false
  /-- The number of groups that are open. -/
  depth : Nat := 0
  deriving DecidableEq, Repr

namespace Progress

/-- Read one symbol, if it may come next. -/
def step (p : Progress) : Symbol → Option Progress
  | .operand _ => if p.complete then none else some ⟨true, p.depth⟩
  | .operator op => if p.complete || op = .sub then some ⟨false, p.depth⟩ else none
  | .opening => if p.complete then none else some ⟨false, p.depth + 1⟩
  | .closing =>
    match p with
    | ⟨true, depth + 1⟩ => some ⟨true, depth⟩
    | _ => none

def run (p : Progress) : List Symbol → Option Progress
  | [] => some p
  | symbol :: rest => (p.step symbol).bind (·.run rest)

variable {p q : Progress} {x y rest : List Symbol} {depth : Nat}

theorem run_append (p : Progress) (x y : List Symbol) : p.run (x ++ y) = (p.run x).bind (·.run y) := by
  induction x generalizing p with
  | nil => rfl
  | cons symbol x ih =>
    rw [List.cons_append, run, run]
    cases p.step symbol with
    | none => rfl
    | some q => exact ih q

theorem run_append_of_some (h : p.run x = some q) (y : List Symbol) : p.run (x ++ y) = q.run y := by
  rw [run_append, h, Option.bind_some]

@[simp]
theorem run_operand (text : List Char) :
    run ⟨false, depth⟩ (.operand text :: rest) = run ⟨true, depth⟩ rest := rfl

@[simp]
theorem run_sign : run ⟨false, depth⟩ (.operator .sub :: rest) = run ⟨false, depth⟩ rest := rfl

@[simp]
theorem run_operator (op : Operator) :
    run ⟨true, depth⟩ (.operator op :: rest) = run ⟨false, depth⟩ rest := rfl

@[simp]
theorem run_opening : run ⟨false, depth⟩ (.opening :: rest) = run ⟨false, depth + 1⟩ rest := rfl

@[simp]
theorem run_closing : run ⟨true, depth + 1⟩ (.closing :: rest) = run ⟨true, depth⟩ rest := rfl

end Progress

namespace Derives

variable {level : Level} {x y : List Symbol} {op : Operator}

/-- Whatever is derived is read as one operand is. -/
theorem run_eq (h : Derives level x) (depth : Nat) :
    Progress.run ⟨false, depth⟩ x = some ⟨true, depth⟩ := by
  induction h generalizing depth with
  | operand text => rw [Progress.run_operand, Progress.run]
  | group h ih =>
    rw [Progress.run_opening, Progress.run_append_of_some (ih _), Progress.run_closing, Progress.run]
  | negate h ih => rw [Progress.run_sign, ih]
  | factor h ih => exact ih depth
  | times hop hx hy ihx ihy => rw [Progress.run_append_of_some (ihx _), Progress.run_operator, ihy]
  | term h ih => exact ih depth
  | plus hop hx hy ihx ihy => rw [Progress.run_append_of_some (ihx _), Progress.run_operator, ihy]

/-! ## Symbols before a row -/

/-- A sign belongs to the first operand behind it. -/
theorem signed (h : Derives level x) : Derives level (.operator .sub :: x) := by
  induction h with
  | operand text => exact .negate (.operand text)
  | group h => exact .negate (.group h)
  | negate h => exact .negate (.negate h)
  | factor h ih => exact .factor ih
  | times hop hx hy ih => exact .times hop ih hy
  | term h ih => exact .term ih
  | plus hop hx hy ih => exact .plus hop ih hy

theorem times_left (hx : Derives .operand x) (hop : op.isMultiplicative = true)
    (hy : Derives .product y) : Derives .product (x ++ .operator op :: y) := by
  generalize hlevel : Level.product = level at hy
  induction hy with
  | factor hy => exact .times hop (.factor hx) hy
  | times hop' hy hz ih =>
    rw [← List.cons_append, ← List.append_assoc]
    exact .times hop' (ih rfl) hz
  | _ => exact absurd hlevel (by simp)

/-- An operand and an operator before a sum make a sum: they join its first product, or they stand
    before it. -/
theorem sum_left (hx : Derives .operand x) (op : Operator) (hy : Derives .sum y) :
    Derives .sum (x ++ .operator op :: y) := by
  generalize hlevel : Level.sum = level at hy
  induction hy with
  | term hy =>
    cases hop : op.isMultiplicative with
    | true => exact .term (times_left hx hop hy)
    | false => exact .plus hop (.term (.factor hx)) hy
  | plus hop' hy hz ih =>
    rw [← List.cons_append, ← List.append_assoc]
    exact .plus hop' (ih rfl) hz
  | _ => exact absurd hlevel (by simp)

end Derives

/-! ## Rows that can be read -/

/-- What can be read from an operand on begins with a sum, and what follows it closes a group if there
    is anything. -/
structure BeginsSum (depth : Nat) (symbols : List Symbol) : Prop where
  exists_sum : ∃ sum rest, symbols = sum ++ rest ∧ Derives .sum sum
    ∧ Progress.run ⟨true, depth⟩ rest = some ⟨true, 0⟩ ∧ ∀ s ∈ rest.head?, s = .closing

/-- Behind an operand the row ends, a group is closed, or an operator leads to another sum. -/
theorem beginsSum_of_operand {depth : Nat} {x rest : List Symbol} (hx : Derives .operand x)
    (h : Progress.run ⟨true, depth⟩ rest = some ⟨true, 0⟩)
    (ih : ∀ symbols : List Symbol, symbols.length < rest.length →
      Progress.run ⟨false, depth⟩ symbols = some ⟨true, 0⟩ → BeginsSum depth symbols) :
    BeginsSum depth (x ++ rest) := by
  cases rest with
  | nil => exact ⟨x, [], rfl, .term (.factor hx), h, by simp⟩
  | cons symbol rest =>
    cases symbol with
    | operand text => exact absurd h (by simp [Progress.run, Progress.step])
    | opening => exact absurd h (by simp [Progress.run, Progress.step])
    | closing => exact ⟨x, .closing :: rest, rfl, .term (.factor hx), h, by simp⟩
    | operator op =>
      obtain ⟨sum, tail, rfl, hsum, htail, hclosing⟩ := (ih rest (by simp) h).exists_sum
      exact ⟨x ++ .operator op :: sum, tail, by simp, hx.sum_left op hsum, htail, hclosing⟩

theorem beginsSum_of_run {depth : Nat} {symbols : List Symbol}
    (h : Progress.run ⟨false, depth⟩ symbols = some ⟨true, 0⟩) : BeginsSum depth symbols := by
  induction hlength : symbols.length using Nat.strongRecOn generalizing depth symbols with
  | ind n ih =>
    subst hlength
    have hshorter : ∀ rest : List Symbol, rest.length < symbols.length → ∀ depth,
        Progress.run ⟨false, depth⟩ rest = some ⟨true, 0⟩ → BeginsSum depth rest :=
      fun rest hrest depth hrun => ih rest.length hrest hrun rfl
    cases symbols with
    | nil => exact absurd h (by simp [Progress.run])
    | cons symbol rest =>
      cases symbol with
      | operand text =>
        rw [Progress.run_operand] at h
        exact beginsSum_of_operand (.operand text) h fun symbols hlt =>
          hshorter symbols (Nat.lt_succ_of_lt hlt) depth
      | closing => exact absurd h (by simp [Progress.run, Progress.step])
      | operator op =>
        have hop : op = .sub := by
          by_contra hne
          simp [Progress.run, Progress.step, hne] at h
        subst hop
        rw [Progress.run_sign] at h
        obtain ⟨sum, tail, rfl, hsum, htail, hclosing⟩ := (hshorter rest (by simp) depth h).exists_sum
        exact ⟨.operator .sub :: sum, tail, rfl, hsum.signed, htail, hclosing⟩
      | opening =>
        rw [Progress.run_opening] at h
        -- the sum inside the group ends where the group is closed
        obtain ⟨sum, tail, rfl, hsum, htail, hclosing⟩ :=
          (hshorter rest (by simp) (depth + 1) h).exists_sum
        cases tail with
        | nil => exact absurd htail (by simp [Progress.run])
        | cons symbol tail =>
          obtain rfl := hclosing symbol rfl
          rw [Progress.run_closing] at htail
          have hgroup := beginsSum_of_operand (.group hsum) htail fun symbols hlt =>
            hshorter symbols (by simp at hlt ⊢; omega) depth
          simpa using hgroup

/-- The symbols that can be read to their end, with no group left open, are those of a sum. -/
theorem derives_iff_run {symbols : List Symbol} :
    Derives .sum symbols ↔ Progress.run {} symbols = some ⟨true, 0⟩ := by
  refine ⟨fun h => h.run_eq 0, fun h => ?_⟩
  obtain ⟨sum, rest, rfl, hsum, hrest, hclosing⟩ := (beginsSum_of_run h).exists_sum
  cases rest with
  | nil => simpa using hsum
  | cons symbol rest =>
    obtain rfl := hclosing symbol rfl
    exact absurd hrest (by simp [Progress.run, Progress.step])

instance (symbols : List Symbol) : Decidable (Derives .sum symbols) :=
  decidable_of_iff _ derives_iff_run.symm

/-! ## Neighbours -/

namespace Symbol

/-- A group stands next to an operand or another group. -/
def abuts : Symbol → Symbol → Bool
  | .operand _, .opening => true
  | .closing, .operand _ => true
  | .closing, .opening => true
  | _, _ => false

/-- No group stands next to an operand or another group. -/
def Separated (symbols : List Symbol) : Prop :=
  symbols.IsChain fun x y => abuts x y = false

instance (symbols : List Symbol) : Decidable (Separated symbols) :=
  inferInstanceAs (Decidable (symbols.IsChain _))

/-- What may stand before a group may stand before anything. -/
theorem abuts_of_opening {x : Symbol} (h : abuts x .opening = false) (y : Symbol) :
    abuts x y = false := by
  cases x with
  | operand text => exact absurd h (by simp [abuts])
  | operator op => rfl
  | opening => rfl
  | closing => exact absurd h (by simp [abuts])

/-- What may stand behind a group may stand behind anything. -/
theorem abuts_of_closing {y : Symbol} (h : abuts .closing y = false) (x : Symbol) :
    abuts x y = false := by
  cases y with
  | operand text => exact absurd h (by simp [abuts])
  | operator op => cases x <;> rfl
  | opening => exact absurd h (by simp [abuts])
  | closing => cases x <;> rfl

end Symbol

open Expr.Symbol

namespace Progress

variable {p q : Progress} {x y : Symbol} {symbols : List Symbol} {depth : Nat}

/-- Behind an operand or a group no operand and no group is read. -/
theorem abuts_of_step (hx : p.step x = some q) (hy : (q.step y).isSome = true) :
    abuts x y = false := by
  cases x with
  | operator op => rfl
  | opening => rfl
  | operand text =>
    cases y with
    | opening =>
      obtain ⟨-, rfl⟩ : p.complete = false ∧ ⟨true, p.depth⟩ = q := by simpa [step] using hx
      exact absurd hy (by simp [step])
    | _ => rfl
  | closing =>
    have hq : q.complete = true := by
      match p, hx with
      | ⟨true, depth + 1⟩, hx => rw [← Option.some.inj hx]
      | ⟨true, 0⟩, hx => exact absurd hx (by simp [step])
      | ⟨false, depth⟩, hx => exact absurd hx (by simp [step])
    cases y with
    | operand text => exact absurd hy (by simp [step, hq])
    | opening => exact absurd hy (by simp [step, hq])
    | operator op => rfl
    | closing => rfl

theorem separated_of_run (h : p.run symbols = some q) : Separated symbols := by
  induction symbols generalizing p with
  | nil => exact List.isChain_nil
  | cons x rest ih =>
    rw [run, Option.bind_eq_some_iff] at h
    obtain ⟨next, hx, hrest⟩ := h
    cases rest with
    | nil => exact List.isChain_singleton x
    | cons y others =>
      have hy : (next.step y).isSome = true := by
        rw [run, Option.bind_eq_some_iff] at hrest
        obtain ⟨later, hy, -⟩ := hrest
        rw [hy]
        rfl
      exact List.isChain_cons_cons.mpr ⟨abuts_of_step hx hy, ih hrest⟩

/-- Where a group may come next, an operand is expected. -/
theorem complete_of_run (h : run ⟨false, depth⟩ symbols = some q)
    (hlast : ∀ x ∈ symbols.getLast?, abuts x .opening = false) : q.complete = false := by
  rcases List.eq_nil_or_concat symbols with rfl | ⟨front, last, rfl⟩
  · rw [← Option.some.inj h]
  · rw [List.concat_eq_append] at h hlast
    rw [run_append, Option.bind_eq_some_iff] at h
    obtain ⟨p, -, hp⟩ := h
    rw [run, Option.bind_eq_some_iff] at hp
    obtain ⟨p', hstep, hp'⟩ := hp
    obtain rfl := Option.some.inj hp'
    have habuts := hlast last (by simp)
    cases last with
    | operand text => exact absurd habuts (by simp [abuts])
    | closing => exact absurd habuts (by simp [abuts])
    | operator op =>
      rw [step] at hstep
      split at hstep
      · rw [← Option.some.inj hstep]
      · exact absurd hstep (by simp)
    | opening =>
      rw [step] at hstep
      split at hstep
      · exact absurd hstep (by simp)
      · rw [← Option.some.inj hstep]

/-- What may stand behind a group and can be read where an operand is expected, can be read behind an
    operand: it begins with a sign. -/
theorem run_behind_operand (h : run ⟨false, depth⟩ symbols = some ⟨true, 0⟩)
    (hfirst : ∀ x ∈ symbols.head?, abuts .closing x = false) :
    run ⟨true, depth⟩ symbols = some ⟨true, 0⟩ := by
  cases symbols with
  | nil => exact absurd h (by simp [run])
  | cons x rest =>
    have habuts := hfirst x rfl
    cases x with
    | operand text => exact absurd habuts (by simp [abuts])
    | opening => exact absurd habuts (by simp [abuts])
    | closing => exact absurd h (by simp [run, step])
    | operator op =>
      rw [run, Option.bind_eq_some_iff] at h
      obtain ⟨p, hstep, hrest⟩ := h
      rw [step] at hstep
      split at hstep
      · rw [run_operator, ← hrest, ← Option.some.inj hstep]
      · exact absurd hstep (by simp)

end Progress

end ConfigLang.Expr
