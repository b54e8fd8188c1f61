import ConfigLang.Config.Basic
import ConfigLang.Proofs.DefiningLine

set_option autoImplicit false

/-! # Readers and decoders

A value is taken to a type in two ways: a reader looks at the value itself, a decoder at its JSON
form, in which every float that is not finite has become null. Main statement: what a decoder gives
at a path of a configuration, the reader of the same type gives as well, except an optional integer
at a float that is not finite (`Config.get_of_decode`). There the decoder sees null and gives nothing,
and the reader sees a number that is not whole and gives a fault. -/

namespace ConfigLang

open Typed (Reader)
open Decode (Decoder)

/-! ## The JSON form -/

namespace Json

/-- The JSON form of a value is the value itself, unless it is a container or a float that is not
    finite. -/
theorem project_cases (v : Value) :
    project v = v
      ∨ (∃ x, v = .float x ∧ Number.isFinite x = false ∧ project v = .null)
      ∨ (∃ items, v = .array items ∧ project v = .array (items.map project))
      ∨ (∃ entries, v = .object entries ∧ project v = .object (projectEntries entries)) := by
  cases v with
  | null | bool _ | int _ | string _ => exact Or.inl rfl
  | float x =>
    cases hfinite : Number.isFinite x with
    | true => exact Or.inl (by rw [project, hfinite, if_pos rfl])
    | false => exact Or.inr (Or.inl ⟨x, rfl, hfinite, by rw [project, hfinite]; rfl⟩)
  | array items =>
    exact Or.inr (Or.inr (Or.inl ⟨items, rfl, by rw [project, projectItems_eq_map]⟩))
  | object entries => exact Or.inr (Or.inr (Or.inr ⟨entries, rfl, by rw [project]⟩))

theorem project_eq_null_iff {v : Value} :
    project v = .null ↔ v = .null ∨ ∃ x, v = .float x ∧ Number.isFinite x = false := by
  constructor
  · intro hnull
    rcases project_cases v with hv | ⟨x, hx, hfinite, -⟩ | ⟨_, -, hv⟩ | ⟨_, -, hv⟩
    · exact Or.inl (hv ▸ hnull)
    · exact Or.inr ⟨x, hx, hfinite⟩
    · cases hv.symm.trans hnull
    · cases hv.symm.trans hnull
  · rintro (rfl | ⟨x, rfl, hfinite⟩)
    · simp [project]
    · rw [project, hfinite]
      rfl

end Json

/-! ## Following a decoder -/

namespace Typed

section

variable {α : Type} {reader : Reader α} {decoder : Decoder α} {v : Value}

/-- At a value the reader gives whatever the decoder gives of the JSON form. -/
def FollowsAt (reader : Reader α) (decoder : Decoder α) (v : Value) : Prop :=
  ∀ x, decoder (Json.project v) = some x → reader v = .ok x

/-- A decoder of scalars but null decodes no JSON form other than the value itself. -/
theorem followsAt_of_scalar (hnull : decoder .null = none)
    (harray : ∀ items, decoder (.array items) = none)
    (hobject : ∀ entries, decoder (.object entries) = none)
    (hsame : ∀ x, decoder v = some x → reader v = .ok x) : FollowsAt reader decoder v := by
  intro x hx
  rcases Json.project_cases v with hv | ⟨y, -, -, hv⟩ | ⟨items, -, hv⟩ | ⟨entries, -, hv⟩
  · exact hsame x (hv ▸ hx)
  · rw [hv, hnull] at hx
    cases hx
  · rw [hv, harray] at hx
    cases hx
  · rw [hv, hobject] at hx
    cases hx

theorem string_followsAt (v : Value) : FollowsAt string Decode.string v := by
  refine followsAt_of_scalar rfl (fun _ => rfl) (fun _ => rfl) fun s hs => ?_
  cases v with
  | string _ => cases hs; rfl
  | _ => cases hs

theorem boolean_followsAt (v : Value) : FollowsAt boolean Decode.boolean v := by
  refine followsAt_of_scalar rfl (fun _ => rfl) (fun _ => rfl) fun b hb => ?_
  cases v with
  | bool _ => cases hb; rfl
  | _ => cases hb

theorem int64_followsAt (v : Value) : FollowsAt int64 Decode.int64 v := by
  refine followsAt_of_scalar rfl (fun _ => rfl) (fun _ => rfl) fun n hn => ?_
  cases v with
  | int _ => cases hn; rfl
  | _ => cases hn

theorem float_followsAt (v : Value) : FollowsAt float Decode.float v := by
  refine followsAt_of_scalar rfl (fun _ => rfl) (fun _ => rfl) fun x hx => ?_
  cases v with
  | float _ => cases hx; rfl
  | int _ => cases hx; rfl
  | _ => cases hx

/-- Of a range both take the same integers, and of a float the decoder takes nothing. -/
theorem ranged_followsAt (range : IntRange) (v : Value) :
    FollowsAt (ranged range) (Decode.ranged range) v := by
  refine followsAt_of_scalar rfl (fun _ => rfl) (fun _ => rfl) fun n hn => ?_
  cases v with
  | int m =>
    by_cases hrange : range.low ≤ m.toInt ∧ m.toInt ≤ range.high
    · simp only [Decode.ranged, dif_pos hrange, Option.some.injEq] at hn
      rw [ranged, int64, ← hn]
      exact dif_pos hrange
    · simp [Decode.ranged, dif_neg hrange] at hn
  | _ => cases hn

/-! ### Arrays and options -/

/-- Items are read one by one, and the decoder has found each of them readable. -/
theorem mapM_of_followsAt {items : List Value} (h : ∀ item, FollowsAt reader decoder item) :
    ∀ {xs : List α}, (items.map Json.project).mapM decoder = some xs →
      items.mapM reader = .ok xs := by
  induction items with
  | nil =>
    intro xs hxs
    cases hxs
    rfl
  | cons item rest ih =>
    intro xs hxs
    simp only [List.map_cons, List.mapM_cons, Option.bind_eq_bind, Option.bind_eq_some_iff] at hxs
    obtain ⟨x, hitem, tail, hrest, hdone⟩ := hxs
    cases hdone
    rw [List.mapM_cons, h item x hitem, ih hrest]
    rfl

theorem list_followsAt (h : ∀ item, FollowsAt reader decoder item) (v : Value) :
    FollowsAt (list reader) (Decode.list decoder) v := by
  intro xs hxs
  cases v with
  | array items =>
    rw [Json.project, Json.projectItems_eq_map] at hxs
    exact mapM_of_followsAt h hxs
  | float x =>
    rw [Json.project] at hxs
    split at hxs <;> cases hxs
  | _ => cases hxs

theorem decode_optional {form : Value} (h : form ≠ .null) :
    Decode.optional decoder form = (decoder form).map some := by
  cases form with
  | null => exact absurd rfl h
  | _ => rfl

theorem read_optional (h : v ≠ .null) : optional reader v = (reader v).map some := by
  cases v with
  | null => exact absurd rfl h
  | _ => rfl

/-- An option is followed where the value is not hidden behind a null. -/
theorem optional_followsAt (h : FollowsAt reader decoder v)
    (hnull : Json.project v = .null → v = .null) :
    FollowsAt (optional reader) (Decode.optional decoder) v := by
  intro x hx
  by_cases hv : Json.project v = .null
  · rw [hv] at hx
    cases hx
    rw [hnull hv]
    rfl
  · have hother : v ≠ .null := fun heq => hv (Json.project_eq_null_iff.mpr (Or.inl heq))
    rw [decode_optional hv] at hx
    obtain ⟨y, hy, rfl⟩ := Option.map_eq_some_iff.mp hx
    rw [read_optional hother, h y hy]
    rfl

end

theorem int64_of_not_finite {x : Float} (h : Number.isFinite x = false) :
    int64 (.float x) = .error (.wanted .wholeNumber (.float x)) := by
  have hwhole : Number.isWhole x = false := by
    unfold Number.isFinite at h
    unfold Number.isWhole
    split <;> simp_all
  simp [int64, wholeInt64?, hwhole]

/-! ## The types of both -/

/-- The types that a value can be both read and decoded as. -/
inductive Shape where
  | string
  | boolean
  | int64
  | unsigned16
  | float
  | strings
  | optionalInt64

namespace Shape

/-- What a value of the type is. -/
def Result : Shape → Type
  | .string => String
  | .boolean => Bool
  | .int64 => Int64
  | .unsigned16 => Ranged .unsigned16
  | .float => Float
  | .strings => List String
  | .optionalInt64 => Option Int64

def reader : (shape : Shape) → Reader shape.Result
  | .string => Typed.string
  | .boolean => Typed.boolean
  | .int64 => Typed.int64
  | .unsigned16 => Typed.ranged .unsigned16
  | .float => Typed.float
  | .strings => Typed.list Typed.string
  | .optionalInt64 => Typed.optional Typed.int64

def decoder : (shape : Shape) → Decoder shape.Result
  | .string => Decode.string
  | .boolean => Decode.boolean
  | .int64 => Decode.int64
  | .unsigned16 => Decode.ranged .unsigned16
  | .float => Decode.float
  | .strings => Decode.list Decode.string
  | .optionalInt64 => Decode.optional Decode.int64

/-- A value that is null in JSON only is a float that is not finite. -/
theorem followsAt (shape : Shape) (v : Value)
    (h : shape = .optionalInt64 → ∀ x, v = .float x → Number.isFinite x = true) :
    FollowsAt shape.reader shape.decoder v := by
  cases shape with
  | string => exact string_followsAt v
  | boolean => exact boolean_followsAt v
  | int64 => exact int64_followsAt v
  | unsigned16 => exact ranged_followsAt .unsigned16 v
  | float => exact float_followsAt v
  | strings => exact list_followsAt string_followsAt v
  | optionalInt64 =>
    refine optional_followsAt (int64_followsAt v) fun hnull => ?_
    rcases Json.project_eq_null_iff.mp hnull with hv | ⟨x, hv, hfinite⟩
    · exact hv
    · rw [h rfl x hv] at hfinite
      cases hfinite

end Shape

end Typed

/-! ## Configurations -/

namespace Config

open Typed (Shape)

theorem decode_of_value {α : Type} {c : Config} {path : List Char} {v : Value}
    (h : c.value path = .ok v) (decoder : Decoder α) :
    c.decode decoder path
      = match decoder (Json.project v) with
        | some x => .ok x
        | none => .error (c.mistyped path (.undecodable (String.ofList path))) := by
  rw [decode, h]
  rfl

theorem get_of_value {α : Type} {c : Config} {path : List Char} {v : Value}
    (h : c.value path = .ok v) (reader : Reader α) : c.get reader path = c.readAt reader path v := by
  rw [get, h]
  rfl

/-- What is decoded at a path comes from a value there. -/
theorem exists_of_decode {α : Type} {c : Config} {path : List Char} {decoder : Decoder α} {x : α}
    (h : c.decode decoder path = .ok x) :
    ∃ v, c.value path = .ok v ∧ decoder (Json.project v) = some x := by
  cases hvalue : c.value path with
  | error f =>
    rw [decode, hvalue] at h
    cases h
  | ok v =>
    refine ⟨v, rfl, ?_⟩
    rw [decode_of_value hvalue] at h
    split at h
    next y hy => rw [hy, Except.ok.inj h]
    next => cases h

/-- As an optional integer a float that is not finite is decoded as nothing and refused by the
    reader. -/
theorem optionalInt64_of_not_finite {c : Config} {path : List Char} {y : Float}
    (hvalue : c.value path = .ok (.float y)) (hfinite : Number.isFinite y = false) :
    c.decode Shape.optionalInt64.decoder path = .ok none
      ∧ c.get Shape.optionalInt64.reader path
        = .error (c.mistyped path (.wanted .wholeNumber (.float y))) := by
  constructor
  · rw [decode_of_value hvalue, Json.project_eq_null_iff.mpr (Or.inr ⟨y, rfl, hfinite⟩)]
    rfl
  · have hread : Shape.optionalInt64.reader (.float y)
        = .error (.wanted .wholeNumber (.float y)) := by
      show (Typed.int64 (.float y)).map some = _
      rw [Typed.int64_of_not_finite hfinite]
      rfl
    rw [get_of_value hvalue, readAt, hread]

/-- Whatever is decoded at a path is also read there, except as an optional integer from a float
    that is not finite: that is decoded as nothing, and the reader refuses it. -/
theorem get_of_decode (c : Config) (path : List Char) :
    (∀ (shape : Shape) (x : shape.Result), c.decode shape.decoder path = .ok x →
        (shape = .optionalInt64 → ∀ y, c.value path = .ok (.float y) → Number.isFinite y = true) →
        c.get shape.reader path = .ok x)
      ∧ ∀ y, c.value path = .ok (.float y) → Number.isFinite y = false →
        c.decode Shape.optionalInt64.decoder path = .ok none
          ∧ c.get Shape.optionalInt64.reader path
            = .error (c.mistyped path (.wanted .wholeNumber (.float y))) := by
  refine ⟨fun shape x hdecode hfinite => ?_, fun y => optionalInt64_of_not_finite⟩
  obtain ⟨v, hvalue, hx⟩ := exists_of_decode hdecode
  have hread : shape.reader v = .ok x :=
    shape.followsAt v (fun hshape y hy => hfinite hshape y (hy ▸ hvalue)) x hx
  rw [get_of_value hvalue, readAt, hread]

/-- Texts in an array, and a float beside them that is too large for JSON. -/
theorem get_of_decode_texts :
    let c : Config := ⟨.object [("l", .array [.string "a", .string ""]),
      ("x", .float (Number.ofParts (.infinite false)))], []⟩
    c.decode Shape.strings.decoder "l".toList = .ok ["a", ""]
      ∧ c.get Shape.strings.reader "l".toList = .ok ["a", ""]
      ∧ c.decode Shape.optionalInt64.decoder "x".toList = .ok none
      ∧ c.get Shape.optionalInt64.reader "x".toList
        = .error (.mistyped (.wanted .wholeNumber (.float (Number.ofParts (.infinite false))))) := by
  intro c
  have hdecode : c.decode Shape.strings.decoder "l".toList = .ok ["a", ""] := rfl
  exact ⟨hdecode, (get_of_decode c "l".toList).1 .strings _ hdecode (fun h => nomatch h),
    (get_of_decode c "x".toList).2 _ rfl (by decide +kernel)⟩

/-- A numeral beyond the largest float stands for the infinite one, which JSON has no number for. -/
theorem exists_decode_not_read :
    ∃ c, Config.parse {} {} "x = 1e999".toList = .ok c
      ∧ c.decode Shape.optionalInt64.decoder "x".toList = .ok none
      ∧ c.get Shape.optionalInt64.reader "x".toList ≠ .ok none := by
  have hinclude : ∀ line ∈ Scan.uncommentedLines "x = 1e999".toList,
      Document.isInclude line = false := by
    decide +kernel
  let c := ofTree ⟨[("x", .float (Number.ofParts (.infinite false)))]⟩ "x = 1e999".toList
  have hparse : Config.parse {} {} "x = 1e999".toList = .ok c := by
    rw [parse_of_plain hinclude]
    with_unfolding_all rfl
  obtain ⟨hdecode, hget⟩ := @optionalInt64_of_not_finite c "x".toList _ rfl (by decide +kernel)
  exact ⟨c, hparse, hdecode, by rw [hget]; exact nofun⟩

end Config

end ConfigLang
