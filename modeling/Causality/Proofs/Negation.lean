import Causality.Number
import Mathlib

/-!
# Negation of doubles

Negation flips the sign bit of a double and leaves exponent and mantissa as they are, so the double
that is whole stays whole, with the negated value. Infinities stay infinite and NaN stays NaN. The
lemmas on packing and unpacking the bits come with the library as a whole only.
-/

namespace Causality

open Float.Model.UnpackedFloat
open Float.Model (Format UnpackedFloat)
open Decimal (Binary twos)

variable {x : Float} {u : UnpackedFloat}

/-! ### Parts of the bits -/

def bitsOf (x : Float) : BitVec Format.binary64.numBits := x.toBits.toBitVec

theorem exponent_toBits (x : Float) :
    ((x.toBits >>> 52) &&& 0x7FF).toNat = (unpackExponent (bitsOf x)).toNat := by
  have h : (unpackExponent (bitsOf x)).toNat = x.toBits.toNat >>> 52 % 2 ^ 11 := by
    rw [unpackExponent_def, BitVec.extractLsb'_toNat]
    rfl
  rw [h, UInt64.toNat_and, UInt64.toNat_shiftRight]
  exact Nat.and_two_pow_sub_one_eq_mod _ 11

theorem mantissa_toBits (x : Float) :
    (x.toBits &&& 0xFFFFFFFFFFFFF).toNat = (unpackMantissa (bitsOf x)).toNat := by
  have h : (unpackMantissa (bitsOf x)).toNat = x.toBits.toNat % 2 ^ 52 := by
    rw [unpackMantissa_def, BitVec.extractLsb'_toNat]
    rfl
  rw [h, UInt64.toNat_and]
  exact Nat.and_two_pow_sub_one_eq_mod _ 52

theorem sign_toBits (x : Float) : x.toBits >>> 63 = 1 ↔ unpackSign (bitsOf x) = 1#1 := by
  have h : (unpackSign (bitsOf x)).toNat = x.toBits.toNat >>> 63 % 2 := by
    rw [unpackSign_def, BitVec.extractLsb'_toNat]
    rfl
  have hlt : x.toBits.toNat >>> 63 < 2 := by
    have hbits := x.toBits.toNat_lt
    rw [Nat.shiftRight_eq_div_pow]
    omega
  rw [← UInt64.toNat_inj, UInt64.toNat_shiftRight, ← BitVec.toNat_inj, h, Nat.mod_eq_of_lt hlt]
  rfl

/-- The exponent of infinities and NaN has all bits set. -/
theorem isSpecial_iff (x : Float) :
    (x.isNaN = true ∨ x.isInf = true) ↔ unpackExponent (bitsOf x) = -1#_ := by
  have hunpack : x.toModel.unpack = unpack Format.binary64 (bitsOf x) := rfl
  change x.toModel.unpack.isNaN = true ∨ x.toModel.unpack.isInf = true ↔ _
  rw [hunpack, unpack]
  dsimp only
  split_ifs <;> simp_all [isNaN, isInf]

def magnitude (exponent mantissa : Nat) : Binary :=
  if exponent = 0 then ⟨mantissa, -1074, false⟩
  else ⟨twos 52 + mantissa, (exponent : Int) - 1075, mantissa = 0 ∧ 1 < exponent⟩

theorem ofBits_toBits (x : Float) : Binary.ofBits x.toBits =
    magnitude (unpackExponent (bitsOf x)).toNat (unpackMantissa (bitsOf x)).toNat := by
  simp only [Binary.ofBits, magnitude, exponent_toBits, mantissa_toBits]

theorem wholeValue?_eq (x : Float) : wholeValue? x =
    if unpackExponent (bitsOf x) = -1#_ then none
    else (magnitude (unpackExponent (bitsOf x)).toNat (unpackMantissa (bitsOf x)).toNat).whole?.map
      fun n => if unpackSign (bitsOf x) = 1#1 then -(n : Int) else n := by
  simp only [wholeValue?, isSpecial_iff, ofBits_toBits, sign_toBits]

/-! ### Bits of the negated double -/

theorem pack_neg (h : u ≠ .notANumber) : ∃ s e m,
    u.pack Format.binary64 = packComponents Format.binary64 s e m ∧
      u.neg.pack Format.binary64 = packComponents Format.binary64 (-s) e m := by
  cases u with
  | infinity s => exact ⟨s, _, _, rfl, rfl⟩
  | notANumber => exact absurd rfl h
  | zero s => exact ⟨s, _, _, rfl, rfl⟩
  | finite s m e hm =>
    unfold pack neg
    dsimp only
    split_ifs <;> exact ⟨s, _, _, rfl, rfl⟩

theorem bitsOf_neg (h : x.toModel.unpack ≠ .notANumber) : ∃ s e m,
    bitsOf x = packComponents Format.binary64 s e m ∧
      bitsOf (-x) = packComponents Format.binary64 (-s) e m := by
  obtain ⟨s, e, m, hx, hneg⟩ := pack_neg h
  refine ⟨s, e, m, ?_, hneg⟩
  rw [← hx]
  exact (pack_unpack_of_valid x.toModel.valid).symm

/-- Both doubles are special, or they differ in the sign alone. -/
theorem parts_neg (x : Float) :
    unpackExponent (bitsOf x) = -1#_ ∧ unpackExponent (bitsOf (-x)) = -1#_ ∨
      unpackExponent (bitsOf (-x)) = unpackExponent (bitsOf x) ∧
        unpackMantissa (bitsOf (-x)) = unpackMantissa (bitsOf x) ∧
        (unpackSign (bitsOf (-x)) = 1#1 ↔ ¬ unpackSign (bitsOf x) = 1#1) := by
  by_cases hnan : x.toModel.unpack = .notANumber
  · have hneg : bitsOf (-x) = packedNaN Format.binary64 := by
      change (x.toModel.unpack.neg).pack Format.binary64 = _
      rw [hnan]
      rfl
    refine .inl ⟨(isSpecial_iff x).mp (.inl ?_), ?_⟩
    · change x.toModel.unpack.isNaN = true
      rw [hnan]
      rfl
    · rw [hneg, packedNaN, unpackExponent_packComponents]
  · obtain ⟨s, e, m, hx, hneg⟩ := bitsOf_neg hnan
    simp only [hx, hneg, unpackExponent_packComponents, unpackMantissa_packComponents,
      unpackSign_packComponents]
    refine .inr ⟨trivial, trivial, ?_⟩
    cases s <;> decide

theorem wholeValue?_neg (x : Float) : wholeValue? (-x) = (wholeValue? x).map fun n => -n := by
  rw [wholeValue?_eq, wholeValue?_eq x]
  rcases parts_neg x with ⟨hspecial, hspecial'⟩ | ⟨hexponent, hmantissa, hsign⟩
  · rw [if_pos hspecial, if_pos hspecial']
    rfl
  · rw [hexponent, hmantissa]
    by_cases hspecial : unpackExponent (bitsOf x) = -1#_
    · rw [if_pos hspecial, if_pos hspecial]
      rfl
    · rw [if_neg hspecial, if_neg hspecial, Option.map_map]
      refine congrArg (Option.map · _) (funext fun n => ?_)
      by_cases hnegative : unpackSign (bitsOf x) = 1#1
      · simp [hsign, hnegative]
      · simp [hsign, hnegative]

end Causality
