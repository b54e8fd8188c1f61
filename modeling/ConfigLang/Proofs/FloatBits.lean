import ConfigLang.Number.Exact
import Mathlib

set_option autoImplicit false

/-! # Floats and their parts

A finite float is told by its parts: decoding its bits and encoding the parts again gives the float
(`ofParts_partsOf`), every magnitude of the format is one of a float (`partsOf_ofParts`), and
changing the sign of a float changes the sign among its parts (`neg_ofParts`). -/

namespace ConfigLang.Number

/-! ## Magnitudes of a format -/

/-- The magnitudes that the finite numbers of a format have. -/
structure BinaryFormat.Holds (f : BinaryFormat) (x : Magnitude) : Prop where
  mantissa_lt : x.mantissa < 2 ^ f.precision
  minExponent_le : f.minExponent ≤ x.exponent
  exponent_le : x.exponent ≤ f.maxExponent
  /-- Only the smallest exponent has mantissas without the leading bit. -/
  leading : f.leadingBit ≤ x.mantissa ∨ x.exponent = f.minExponent

/-- The parts that 64 bits stand for. -/
theorem decode_double (bits : Nat) :
    BinaryFormat.double.decode bits
      = if bits / 2 ^ 52 % 2048 = 2047 then
          if bits % 2 ^ 52 = 0 then .infinite (bits / 2 ^ 52 / 2048 % 2 == 1) else .nan
        else if bits / 2 ^ 52 % 2048 = 0 then
          .finite (bits / 2 ^ 52 / 2048 % 2 == 1) ⟨bits % 2 ^ 52, -1074⟩
        else
          .finite (bits / 2 ^ 52 / 2048 % 2 == 1)
            ⟨2 ^ 52 + bits % 2 ^ 52, -1074 + (bits / 2 ^ 52 % 2048 : Nat) - 1⟩ := rfl

/-- The 64 bits that stand for a finite number. -/
theorem encode_double (negative : Bool) (x : Magnitude) :
    BinaryFormat.double.encode (.finite negative x)
      = if x.mantissa < 2 ^ 52 then (if negative then 2 ^ 63 else 0) + x.mantissa
        else (if negative then 2 ^ 63 else 0) + (x.exponent + 1075).toNat * 2 ^ 52
          + (x.mantissa - 2 ^ 52) := by
  have hexponent : x.exponent - (-1074) + 1 = x.exponent + 1075 := by omega
  rw [← hexponent]
  rfl

theorem holds_double_iff {x : Magnitude} :
    BinaryFormat.double.Holds x ↔ x.mantissa < 2 ^ 53 ∧ -1074 ≤ x.exponent ∧ x.exponent ≤ 971
      ∧ (2 ^ 52 ≤ x.mantissa ∨ x.exponent = -1074) := by
  have hmax : BinaryFormat.double.maxExponent = 971 := by decide
  have hleading : BinaryFormat.double.leadingBit = 2 ^ 52 := rfl
  constructor
  · intro h
    refine ⟨h.mantissa_lt, h.minExponent_le, hmax ▸ h.exponent_le, ?_⟩
    rw [← hleading]
    exact h.leading
  · rintro ⟨hmantissa, hlow, hhigh, hlead⟩
    refine ⟨hmantissa, hlow, hmax ▸ hhigh, ?_⟩
    rw [hleading]
    exact hlead

theorem holds_of_decode {bits : Nat} {negative : Bool} {x : Magnitude}
    (h : BinaryFormat.double.decode bits = .finite negative x) : BinaryFormat.double.Holds x := by
  rw [decode_double] at h
  rw [holds_double_iff]
  split at h
  · split at h <;> exact absurd h (by simp)
  · split at h
    all_goals
      simp only [Parts.finite.injEq] at h
      obtain ⟨-, rfl⟩ := h
      dsimp only
      omega

theorem encode_decode {bits : Nat} (hbits : bits < 2 ^ 64) {negative : Bool} {x : Magnitude}
    (h : BinaryFormat.double.decode bits = .finite negative x) :
    BinaryFormat.double.encode (.finite negative x) = bits := by
  rw [decode_double] at h
  rw [encode_double]
  split at h
  · split at h <;> exact absurd h (by simp)
  · split at h
    all_goals
      simp only [Parts.finite.injEq] at h
      obtain ⟨rfl, rfl⟩ := h
      simp only [beq_iff_eq]
      split <;> split <;> omega

/-- The fields of a pattern of 64 bits. -/
theorem fields_of_pattern (negative : Bool) {field fraction bits : Nat} (hfield : field < 2048)
    (hfraction : fraction < 2 ^ 52)
    (hbits : bits = (if negative then 2 ^ 63 else 0) + field * 2 ^ 52 + fraction) :
    bits / 2 ^ 52 % 2048 = field ∧ bits % 2 ^ 52 = fraction
      ∧ (bits / 2 ^ 52 / 2048 % 2 == 1) = negative := by
  cases negative with
  | false =>
    rw [if_neg Bool.false_ne_true] at hbits
    refine ⟨by omega, by omega, ?_⟩
    rw [beq_eq_false_iff_ne]
    omega
  | true =>
    rw [if_pos rfl] at hbits
    refine ⟨by omega, by omega, ?_⟩
    rw [beq_iff_eq]
    omega

theorem decode_encode (negative : Bool) {x : Magnitude} (h : BinaryFormat.double.Holds x) :
    BinaryFormat.double.decode (BinaryFormat.double.encode (.finite negative x))
      = .finite negative x := by
  obtain ⟨mantissa, exponent⟩ := x
  rw [holds_double_iff] at h
  dsimp only at h
  obtain ⟨hmantissa, hlow, hhigh, hleading⟩ := h
  rw [encode_double, decode_double]
  dsimp only
  by_cases hsmall : mantissa < 2 ^ 52
  · have hexponent : exponent = -1074 := hleading.resolve_left (by omega)
    rw [if_pos hsmall]
    have hbits : (if negative then 2 ^ 63 else 0) + mantissa
        = (if negative then 2 ^ 63 else 0) + 0 * 2 ^ 52 + mantissa := by omega
    obtain ⟨hfield, hfraction, hsign⟩ := fields_of_pattern negative (by decide) hsmall hbits
    rw [hfield, hfraction, hsign, hexponent]
    rfl
  · rw [if_neg hsmall]
    obtain ⟨hfield, hfraction, hsign⟩ := fields_of_pattern negative
      (show (exponent + 1075).toNat < 2048 by omega) (show mantissa - 2 ^ 52 < 2 ^ 52 by omega) rfl
    rw [hfield, hfraction, hsign, if_neg (by omega), if_neg (by omega)]
    have hmantissaEq : 2 ^ 52 + (mantissa - 2 ^ 52) = mantissa := by omega
    have hexponentEq : -1074 + ((exponent + 1075).toNat : Int) - 1 = exponent := by omega
    rw [hmantissaEq, hexponentEq]

theorem encode_lt (negative : Bool) {x : Magnitude} (h : BinaryFormat.double.Holds x) :
    BinaryFormat.double.encode (.finite negative x) < 2 ^ 64 := by
  rw [holds_double_iff] at h
  rw [encode_double]
  split <;> split <;> omega

/-! ## Patterns of bits -/

section

open Float.Model UnpackedFloat

theorem toNat_unpackMantissa (b : BitVec 64) :
    (@unpackMantissa Format.binary64 b).toNat = b.toNat % 2 ^ 52 := by
  rw [unpackMantissa, BitVec.toNat_cast, BitVec.extractLsb_toNat]
  rfl

theorem toNat_unpackExponent (b : BitVec 64) :
    (@unpackExponent Format.binary64 b).toNat = b.toNat / 2 ^ 52 % 2048 := by
  rw [unpackExponent, BitVec.toNat_cast, BitVec.extractLsb_toNat, Nat.shiftRight_eq_div_pow]
  rfl

theorem toNat_unpackSign (b : BitVec 64) :
    (@unpackSign Format.binary64 b).toNat = b.toNat / 2 ^ 63 % 2 := by
  rw [unpackSign, BitVec.toNat_cast, BitVec.extractLsb_toNat, Nat.shiftRight_eq_div_pow]
  rfl

theorem toNat_packComponents (sign : Sign) (exponent : BitVec 11) (mantissa : BitVec 52) :
    (packComponents Format.binary64 sign exponent mantissa).toNat
      = sign.toBitVec.toNat * 2 ^ 63 + exponent.toNat * 2 ^ 52 + mantissa.toNat := by
  have hexponent := exponent.isLt
  have hmantissa := mantissa.isLt
  rw [packComponents, BitVec.toNat_append, BitVec.toNat_append,
    ← Nat.shiftLeft_add_eq_or_of_lt exponent.isLt, ← Nat.shiftLeft_add_eq_or_of_lt mantissa.isLt, Nat.shiftLeft_eq, Nat.shiftLeft_eq]
  show (_ * 2 ^ 11 + _) * 2^52 + _ = _
  omega

/-- The sign of a pattern. -/
def signOf (b : BitVec 64) : Sign :=
  .ofBitVec (@unpackSign Format.binary64 b)

theorem toNat_signOf (b : BitVec 64) : (signOf b).toBitVec.toNat = b.toNat / 2 ^ 63 := by
  have hsign := toNat_unpackSign b
  have hb := b.isLt
  unfold signOf Sign.ofBitVec
  split
  next hzero =>
    rw [hzero] at hsign
    have hlow : (0#1).toNat = 0 := rfl
    show 0 = _
    omega
  next hone =>
    have hne : (@unpackSign Format.binary64 b).toNat ≠ 0 :=
      fun heq => hone (BitVec.eq_of_toNat_eq heq)
    show 1 = _
    omega

theorem packComponents_unpack (b : BitVec 64) :
    packComponents Format.binary64 (signOf b) (@unpackExponent Format.binary64 b)
      (@unpackMantissa Format.binary64 b) = b := by
  apply BitVec.eq_of_toNat_eq
  rw [toNat_packComponents, toNat_signOf, toNat_unpackExponent, toNat_unpackMantissa]
  omega

theorem pack_finite (s : Sign) (m : Nat) (e : Int) (hm : 0 < m) :
    UnpackedFloat.pack Format.binary64 (.finite s m e hm)
      = if 2048 ≤ (e + 1023 + 52).toNat + 1 then packedInfinity Format.binary64 s
        else if m.log2 + 1 = 53 then
          packComponents Format.binary64 s (BitVec.ofNat 11 (e + 1023 + 52).toNat) (BitVec.ofNat 52 m)
        else packComponents Format.binary64 s 0#11 (BitVec.ofNat 52 m) := rfl

theorem pack_subnormal (s : Sign) {m : BitVec 52} (hm : 0 < m.toNat) {e : Int} (he : e = -1074) :
    UnpackedFloat.pack Format.binary64 (.finite s m.toNat e hm)
      = packComponents Format.binary64 s 0#11 m := by
  have hlog : m.toNat.log2 < 52 := (Nat.log2_lt (by omega)).mpr m.isLt
  rw [pack_finite, if_neg (by omega), if_neg (by omega), BitVec.ofNat_toNat, BitVec.setWidth_eq]

/-- The leading bit before the bits of a fraction. -/
theorem toNat_leading_append (m : BitVec 52) : (1#1 ++ m).toNat = 2 ^ 52 + m.toNat := by
  rw [BitVec.toNat_append, ← Nat.shiftLeft_add_eq_or_of_lt m.isLt]
  rfl

theorem pack_normal (s : Sign) {field : BitVec 11} {m : BitVec 52} (hspecial : field ≠ -1#11)
    (hm : 0 < (1#1 ++ m).toNat) {e : Int} (he : e = field.toNat - 1075) :
    UnpackedFloat.pack Format.binary64 (.finite s (1#1 ++ m).toNat e hm)
      = packComponents Format.binary64 s field m := by
  have hmantissa := toNat_leading_append m
  have hmLt := m.isLt
  have hlog : (1#1 ++ m).toNat.log2 = 52 := by
    rw [hmantissa, Nat.log2_eq_iff (by omega)]
    omega
  have hfieldLt := field.isLt
  have hne : field.toNat ≠ 2047 := fun heq => hspecial (BitVec.eq_of_toNat_eq heq)
  have hbiased : (e + 1023 + 52).toNat = field.toNat := by omega
  have hlow : BitVec.ofNat 52 (1#1 ++ m).toNat = m := by
    apply BitVec.eq_of_toNat_eq
    rw [BitVec.toNat_ofNat, hmantissa]
    omega
  rw [pack_finite, hbiased, hlog, if_neg (by omega), if_pos rfl, hlow, BitVec.ofNat_toNat,
    BitVec.setWidth_eq]

/-- A finite pattern is packed from what it unpacks to, and another sign replaces its own. -/
theorem pack_unpack_cases {b : BitVec 64} (h : @unpackExponent Format.binary64 b ≠ -1#11) :
    (UnpackedFloat.unpack Format.binary64 b = .zero (signOf b) ∧ ∀ s,
        packedZero Format.binary64 s = packComponents Format.binary64 s
          (@unpackExponent Format.binary64 b) (@unpackMantissa Format.binary64 b))
      ∨ ∃ m e hm, UnpackedFloat.unpack Format.binary64 b = .finite (signOf b) m e hm ∧ ∀ s,
        UnpackedFloat.pack Format.binary64 (.finite s m e hm) = packComponents Format.binary64 s
          (@unpackExponent Format.binary64 b) (@unpackMantissa Format.binary64 b) := by
  unfold UnpackedFloat.unpack
  dsimp only
  rw [if_neg h]
  by_cases hexponent : @unpackExponent Format.binary64 b = 0#11
  · rw [if_pos hexponent]
    by_cases hmantissa : @unpackMantissa Format.binary64 b = 0#52
    · left
      rw [dif_pos hmantissa, hexponent, hmantissa]
      exact ⟨rfl, fun s => rfl⟩
    · right
      have hpos : 0 < (@unpackMantissa Format.binary64 b).toNat :=
        Nat.pos_of_ne_zero fun hzero => hmantissa (BitVec.eq_of_toNat_eq hzero)
      rw [dif_neg hmantissa]
      refine ⟨_, _, hpos, rfl, fun s => ?_⟩
      rw [hexponent]
      exact pack_subnormal s _ (by decide)
  · right
    have hpos : 0 < (1#1 ++ @unpackMantissa Format.binary64 b).toNat := by
      rw [toNat_leading_append]
      omega
    rw [if_neg hexponent]
    exact ⟨_, _, hpos, rfl, fun s => pack_normal s h hpos rfl⟩

theorem pack_unpack {b : BitVec 64} (h : @unpackExponent Format.binary64 b ≠ -1#11) :
    UnpackedFloat.pack Format.binary64 (UnpackedFloat.unpack Format.binary64 b) = b := by
  rcases pack_unpack_cases h with ⟨hunpack, hpack⟩ | ⟨m, e, hm, hunpack, hpack⟩
  · rw [hunpack]
    exact (hpack _).trans (packComponents_unpack b)
  · rw [hunpack]
    exact (hpack _).trans (packComponents_unpack b)

/-- Changing the sign of what a pattern unpacks to changes its sign bit. -/
theorem toNat_pack_neg {b : BitVec 64} (h : @unpackExponent Format.binary64 b ≠ -1#11) :
    (UnpackedFloat.pack Format.binary64 (UnpackedFloat.unpack Format.binary64 b).neg).toNat
      = if b.toNat < 2 ^ 63 then b.toNat + 2 ^ 63 else b.toNat - 2 ^ 63 := by
  have hpack : UnpackedFloat.pack Format.binary64 (UnpackedFloat.unpack Format.binary64 b).neg
      = packComponents Format.binary64 (-signOf b) (@unpackExponent Format.binary64 b)
          (@unpackMantissa Format.binary64 b) := by
    rcases pack_unpack_cases h with ⟨hunpack, hpack⟩ | ⟨m, e, hm, hunpack, hpack⟩
    · rw [hunpack]
      exact hpack _
    · rw [hunpack]
      exact hpack _
  have hflip : ∀ s : Sign, (-s).toBitVec.toNat = 1 - s.toBitVec.toNat := by
    rintro (_ | _) <;> rfl
  have hb := b.isLt
  rw [hpack, toNat_packComponents, hflip, toNat_signOf, toNat_unpackExponent,
    toNat_unpackMantissa]
  split <;> omega

theorem unpackExponent_ne_of_decode {b : BitVec 64} {negative : Bool} {x : Magnitude}
    (h : BinaryFormat.double.decode b.toNat = .finite negative x) :
    @unpackExponent Format.binary64 b ≠ -1#11 := by
  intro hspecial
  have hfield := toNat_unpackExponent b
  rw [hspecial] at hfield
  rw [decode_double, ← hfield] at h
  have hall : (-1#11).toNat = 2047 := rfl
  rw [if_pos hall] at h
  split at h <;> exact absurd h (by simp)

end

/-! ## Floats -/

/-- The bits of a finite float are kept. -/
theorem toBits_ofBits {bits : UInt64} {negative : Bool} {x : Magnitude}
    (h : BinaryFormat.double.decode bits.toNat = .finite negative x) :
    (Float.ofBits bits).toBits = bits := by
  have hpack := pack_unpack (unpackExponent_ne_of_decode (b := bits.toBitVec) h)
  show UInt64.ofBitVec (Float.Model.UnpackedFloat.pack Float.Model.Format.binary64
    (Float.Model.UnpackedFloat.unpack Float.Model.Format.binary64 bits.toBitVec)) = bits
  rw [hpack]

theorem ext_toBits {x y : Float} (h : x.toBits = y.toBits) : x = y := by
  obtain ⟨⟨bits, hvalid⟩⟩ := x
  obtain ⟨⟨bits', hvalid'⟩⟩ := y
  have hbits : bits = bits' := h
  subst hbits
  rfl

variable {negative : Bool}

/-- Decoding the bits of a finite float and encoding the parts again gives the float. -/
theorem ofParts_partsOf {x : Float} {m : Magnitude} (h : partsOf x = .finite negative m) :
    ofParts (.finite negative m) = x := by
  apply ext_toBits
  rw [ofParts, encode_decode x.toBits.toNat_lt h, UInt64.ofNat_toNat]
  exact toBits_ofBits h

theorem decode_toNat_ofNat_encode {m : Magnitude} (h : BinaryFormat.double.Holds m) :
    BinaryFormat.double.decode
        (UInt64.ofNat (BinaryFormat.double.encode (.finite negative m))).toNat
      = .finite negative m := by
  rw [UInt64.toNat_ofNat_of_lt' (encode_lt negative h), decode_encode negative h]

/-- Every magnitude of the format is one of a float. -/
theorem partsOf_ofParts {m : Magnitude} (h : BinaryFormat.double.Holds m) :
    partsOf (ofParts (.finite negative m)) = .finite negative m := by
  have hdecode : BinaryFormat.double.decode
      (UInt64.ofNat (BinaryFormat.double.encode (.finite negative m))).toNat
        = .finite negative m := decode_toNat_ofNat_encode h
  rw [partsOf, ofParts, toBits_ofBits hdecode, hdecode]

/-- Changing the sign of a float changes the sign among its parts. -/
theorem partsOf_neg {x : Float} {m : Magnitude} (h : partsOf x = .finite negative m) :
    partsOf (-x) = .finite (!negative) m := by
  have hneg := toNat_pack_neg (unpackExponent_ne_of_decode (b := x.toBits.toBitVec) h)
  have hbits : x.toBits.toNat = BinaryFormat.double.encode (.finite negative m) :=
    (encode_decode x.toBits.toNat_lt h).symm
  have hencode : (-x).toBits.toNat = BinaryFormat.double.encode (.finite (!negative) m) := by
    have hrange := holds_double_iff.mp (holds_of_decode h)
    have hflip : (-x).toBits.toNat
        = if x.toBits.toNat < 2 ^ 63 then x.toBits.toNat + 2 ^ 63 else x.toBits.toNat - 2 ^ 63 :=
      hneg
    rw [hflip, hbits, encode_double, encode_double]
    cases negative with
    | false =>
      simp only [Bool.false_eq_true, Bool.not_false, if_true, if_false]
      split <;> split <;> omega
    | true =>
      simp only [Bool.false_eq_true, Bool.not_true, if_true, if_false]
      split <;> split <;> omega
  rw [partsOf, hencode, decode_encode _ (holds_of_decode h)]

theorem neg_ofParts {m : Magnitude} (h : BinaryFormat.double.Holds m) :
    -ofParts (.finite negative m) = ofParts (.finite (!negative) m) :=
  (ofParts_partsOf (partsOf_neg (partsOf_ofParts h))).symm

end ConfigLang.Number
