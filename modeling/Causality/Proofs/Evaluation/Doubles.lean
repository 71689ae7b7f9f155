import Causality.Proofs.Evaluation.Values
import Causality.Proofs.Negation

/-!
# Exact values of doubles

A finite double is a rational number. Read so in a field, whole doubles are whole numbers and
negation is exact, whatever is taken for truth values and for other nodes.
-/

namespace Causality

open Float.Model.UnpackedFloat
open Decimal (Binary)

def Decimal.Binary.toRat (x : Binary) : ℚ := x.numerator / x.denominator

def exactValue (x : Float) : ℚ :=
  if x.isNaN ∨ x.isInf then 0
  else if x.toBits >>> 63 = 1 then -(Binary.ofBits x.toBits).toRat
  else (Binary.ofBits x.toBits).toRat

theorem exactValue_eq (x : Float) : exactValue x =
    if unpackExponent (bitsOf x) = -1#_ then 0
    else
      let v := (magnitude (unpackExponent (bitsOf x)).toNat
        (unpackMantissa (bitsOf x)).toNat).toRat
      if unpackSign (bitsOf x) = 1#1 then -v else v := by
  simp only [exactValue, isSpecial_iff, ofBits_toBits, sign_toBits]

theorem exactValue_neg (x : Float) : exactValue (-x) = -exactValue x := by
  rw [exactValue_eq, exactValue_eq x]
  rcases parts_neg x with ⟨hspecial, hspecial'⟩ | ⟨hexponent, hmantissa, hsign⟩
  · rw [if_pos hspecial, if_pos hspecial', neg_zero]
  · rw [hexponent, hmantissa]
    by_cases hspecial : unpackExponent (bitsOf x) = -1#_
    · rw [if_pos hspecial, if_pos hspecial, neg_zero]
    · rw [if_neg hspecial, if_neg hspecial]
      by_cases hnegative : unpackSign (bitsOf x) = 1#1
      · simp [hsign, hnegative]
      · simp [hsign, hnegative]

theorem Decimal.Binary.toRat_of_whole? {x : Binary} {n : Nat} (h : x.whole? = some n) :
    x.toRat = n := by
  unfold whole? at h
  split_ifs at h with hdivides
  have hpos : x.denominator ≠ 0 := (Nat.two_pow_pos _).ne'
  rw [← Option.some.inj h, toRat, Nat.cast_div (Nat.dvd_of_mod_eq_zero hdivides)]
  exact_mod_cast hpos

theorem exactValue_of_whole {x : Float} {n : Int} (h : wholeValue? x = some n) :
    exactValue x = n := by
  rw [wholeValue?_eq] at h
  rw [exactValue_eq]
  by_cases hspecial : unpackExponent (bitsOf x) = -1#_
  · rw [if_pos hspecial] at h
    cases h
  · rw [if_neg hspecial] at h ⊢
    obtain ⟨_, hcast, rfl⟩ := Option.map_eq_some_iff.mp h
    obtain ⟨k, hk, hcast⟩ := Option.bind_eq_some_iff.mp hcast
    obtain rfl := Option.some.inj hcast
    rw [Binary.toRat_of_whole? hk]
    by_cases hnegative : unpackSign (bitsOf x) = 1#1
    · simp [hnegative]
    · simp [hnegative]

def Interpretation.exact {K : Type} [Field K] (truth : Bool → K) (apply : Expr → List K → K) :
    Interpretation K where
  real x := (exactValue x : K)
  truth := truth
  apply := apply
  real_whole x n h := by rw [exactValue_of_whole h, Rat.cast_intCast]
  real_neg x := by rw [exactValue_neg, Rat.cast_neg]

end Causality
