import Causality.Proofs.Negation

/-!
# Integers that are doubles

An integer is rounded to the nearest double. One with at most 53 significant bits that is not
beyond the largest double keeps its value, and no double has the value of any other one. So the
digits of an integer tell whether rounding it and comparing the result with it would succeed.
-/

namespace Causality

open Float.Model.UnpackedFloat
open Float.Model (Format UnpackedFloat totalExponent)
open Decimal (Binary twos)

variable {M k m : Nat} {E n : Int} {x : Float}

/-- The integer has the value of the double nearest to it. -/
def IsDouble (n : Int) : Prop := ∃ x, doubleOf n = .ok x ∧ wholeValue? x = some n

theorem log2_mul_two_pow (hm : m ≠ 0) (j : Nat) : (m * 2 ^ j).log2 = m.log2 + j := by
  induction j with
  | zero => rw [Nat.pow_zero, Nat.mul_one, Nat.add_zero]
  | succ j ih =>
    have hne : m * 2 ^ j ≠ 0 := Nat.mul_ne_zero hm (Nat.two_pow_pos j).ne'
    rw [Nat.pow_succ', Nat.mul_left_comm, Nat.log2_two_mul hne, ih, Nat.add_assoc]

/-- A significand of full length, with its highest bit set. -/
def FullSignificand (M : Nat) : Prop := 2 ^ 52 ≤ M ∧ M < 2 ^ 53

namespace FullSignificand

theorem pos (hM : FullSignificand M) : 0 < M := Nat.lt_of_lt_of_le (Nat.two_pow_pos 52) hM.1

theorem of_log2 (hM : M ≠ 0) (h : M.log2 = 52) : FullSignificand M := (Nat.log2_eq_iff hM).mp h

theorem log2_eq (hM : FullSignificand M) : M.log2 = 52 := (Nat.log2_eq_iff hM.pos.ne').mpr hM

/-- The highest bit is the one that is not written. -/
theorem add_mod (hM : FullSignificand M) : 2 ^ 52 + M % 2 ^ 52 = M := by
  have hlow := hM.1
  have hhigh := hM.2
  omega

end FullSignificand

/-! ### Rounding what needs no rounding -/

theorem targetExponent_eq (t : Int) : Format.binary64.targetExponent t = max (t - 53) (-1074) := rfl

theorem shiftRight_exact (j M : Nat) :
    (ExtendedMantissa.mk (M * 2 ^ j) false false) >>> j = ⟨M, false, false⟩ := by
  change j.repeat ExtendedMantissa.shiftRightOne _ = _
  induction j generalizing M with
  | zero => simp [Nat.repeat]
  | succ j ih =>
    rw [Nat.pow_succ', ← Nat.mul_assoc, Nat.repeat, ih]
    simp [ExtendedMantissa.shiftRightOne]

theorem shift_exact (hM : FullSignificand M) (hE : -1074 ≤ E) (j : Nat) :
    shiftToTargetExponent Format.binary64 (M * 2 ^ j) (E - j) .exact = (⟨M, false, false⟩, E) := by
  have htarget : Format.binary64.targetExponent (totalExponent (M * 2 ^ j) (E - j)) = E := by
    rw [targetExponent_eq, totalExponent, log2_mul_two_pow hM.pos.ne', hM.log2_eq]
    omega
  have hshift : (E - (E - j)).toNat = j := by omega
  rw [shiftToTargetExponent, htarget, shiftToExponent, hshift]
  simp only [ExtendedMantissa.ofMantissaAndAccuracy]
  rw [shiftRight_exact, Int.sub_add_cancel]

/-- Zeros at the end of a mantissa that is too long are moved into the exponent. -/
theorem roundWithAccuracy_exact (hM : FullSignificand M) (hE : -1074 ≤ E) (j : Nat) (s : Sign) :
    roundWithAccuracy Format.binary64 s (M * 2 ^ j) (E - j) .exact = .finite s M E hM.pos := by
  have hrounded : ExtendedMantissa.roundedMantissa ⟨M, false, false⟩ = M := rfl
  have hagain := shift_exact hM hE 0
  rw [Nat.pow_zero, Nat.mul_one, Int.natCast_zero, Int.sub_zero] at hagain
  simp only [roundWithAccuracy, shift_exact hM hE j, hrounded, hagain, hM.pos.ne', dite_false]

/-- A mantissa that is too short gets zeros at its end. -/
theorem round_exact (j : Nat) (hM : FullSignificand (m * 2 ^ j)) (hE : -1074 ≤ E) (s : Sign) :
    UnpackedFloat.round Format.binary64 s m (E + j) = .finite s (m * 2 ^ j) E hM.pos := by
  have hlog := hM.log2_eq
  rw [log2_mul_two_pow (Nat.pos_of_mul_pos_right hM.pos).ne'] at hlog
  have htarget : Format.binary64.targetExponent (totalExponent m (E + j)) = E := by
    rw [targetExponent_eq, totalExponent]
    omega
  have hshift : (E + j - E).toNat = j := by omega
  have hrounded := roundWithAccuracy_exact hM hE 0 s
  rw [Nat.pow_zero, Nat.mul_one, Int.natCast_zero, Int.sub_zero] at hrounded
  simp only [UnpackedFloat.round, htarget, decreaseExponent, hshift, Nat.shiftLeft_eq,
    Int.add_sub_cancel]
  exact hrounded

/-! ### Bits -/

theorem pack_exact (hM : FullSignificand M) (hE : -1074 ≤ E) (hE' : E ≤ 971) (s : Sign) :
    pack Format.binary64 (.finite s M E hM.pos) =
      packComponents Format.binary64 s (BitVec.ofNat _ (E + 1075).toNat) (BitVec.ofNat _ M) := by
  have hbiased : E + Format.binary64.exponentBias + Format.binary64.mantissaBitsWithoutImplicit =
      E + 1075 := by
    change E + 1023 + 52 = _
    omega
  rw [pack]
  simp only [hbiased, hM.log2_eq]
  rw [if_neg (by omega), if_pos (show 52 + 1 = Format.binary64.mantissaBits from rfl)]

theorem toNat_exponent (hE' : E ≤ 971) : (BitVec.ofNat 11 (E + 1075).toNat).toNat =
    (E + 1075).toNat := by
  rw [BitVec.toNat_ofNat]
  omega

theorem exponent_ne_special (hE' : E ≤ 971) : BitVec.ofNat 11 (E + 1075).toNat ≠ -1#_ := by
  intro h
  have hlt : (E + 1075).toNat = 2047 := (toNat_exponent hE').symm.trans (congrArg BitVec.toNat h)
  omega

theorem exponent_ne_zero (hE : -1074 ≤ E) (hE' : E ≤ 971) :
    BitVec.ofNat 11 (E + 1075).toNat ≠ 0#_ := by
  intro h
  have hpos : (E + 1075).toNat = 0 := (toNat_exponent hE').symm.trans (congrArg BitVec.toNat h)
  omega

theorem unpack_pack_exact (hM : FullSignificand M) (hE : -1074 ≤ E) (hE' : E ≤ 971) (s : Sign) :
    unpack Format.binary64 (pack Format.binary64 (.finite s M E hM.pos)) =
      .finite s M E hM.pos := by
  have hmantissa : (1#1 ++ BitVec.ofNat 52 M).toNat = M := by
    rw [BitVec.toNat_append, ← Nat.shiftLeft_add_eq_or_of_lt (BitVec.isLt _), BitVec.toNat_ofNat]
    exact hM.add_mod
  have hexponent : ((E + 1075).toNat : Int) - (1023 + 52) = E := by omega
  rw [pack_exact hM hE hE', unpack]
  simp only [unpackExponent_packComponents, unpackMantissa_packComponents,
    unpackSign_packComponents, Sign.ofBitVec_toBitVec, toNat_exponent hE', hmantissa]
  rw [if_neg (exponent_ne_special hE'), if_neg (exponent_ne_zero hE hE')]
  congr 1

/-- The value of a whole double, read off its significand and exponent. -/
theorem wholeValue?_of_pack (hM : FullSignificand M) (hE : -1074 ≤ E) (hE' : E ≤ 971)
    (hx : bitsOf x = pack Format.binary64 (.finite .positive M E hM.pos))
    (hk : k * 2 ^ (-E).toNat = M * 2 ^ E.toNat) : wholeValue? x = some (k : Int) := by
  have hmantissa : (BitVec.ofNat 52 M).toNat = M % 2 ^ 52 := BitVec.toNat_ofNat M 52
  have hexponent : ((E + 1075).toNat : Int) - 1075 = E := by omega
  have hpos : 0 < 2 ^ (-E).toNat := Nat.two_pow_pos _
  have hwhole : (magnitude (E + 1075).toNat (M % 2 ^ 52)).whole? = some k := by
    rw [magnitude, if_neg (by omega), hexponent]
    change (if (2 ^ 52 + M % 2 ^ 52) * 2 ^ E.toNat % 2 ^ (-E).toNat = 0 then
      some ((2 ^ 52 + M % 2 ^ 52) * 2 ^ E.toNat / 2 ^ (-E).toNat) else none) = _
    rw [hM.add_mod, ← hk, Nat.mul_mod_left, if_pos rfl, Nat.mul_div_cancel _ hpos]
  rw [wholeValue?_eq, hx, pack_exact hM hE hE', unpackExponent_packComponents,
    unpackMantissa_packComponents, unpackSign_packComponents, if_neg (exponent_ne_special hE'),
    toNat_exponent hE', hmantissa, hwhole]
  rfl

/-! ### Natural numbers to doubles -/

theorem unpack_one : (Float.ofBits 0x3FF0000000000000).toModel.unpack =
    .finite .positive (2 ^ 52) (-52) (Nat.two_pow_pos 52) := rfl

/-- A number of at most 53 bits goes through a machine word. -/
theorem ofNat_of_lt (j : Nat) (hM : FullSignificand (k * 2 ^ j)) (hk : k < 2 ^ 53) (hj : j ≤ 52) :
    bitsOf (Float.ofNat k) = pack Format.binary64 (.finite .positive (k * 2 ^ j) (-j) hM.pos) := by
  have hpos : 0 < k := Nat.pos_of_mul_pos_right hM.pos
  have hE : -1074 ≤ -(j : Int) := by omega
  have hword : k.toUInt64.toNat = k := by
    rw [Nat.toUInt64, UInt64.toNat_ofNat']
    omega
  have hconverted : UnpackedFloat.ofUInt64 Format.binary64 k.toUInt64 =
      .finite .positive (k * 2 ^ j) (-j) hM.pos := by
    have hround := round_exact j hM hE .positive
    rw [Int.add_left_neg] at hround
    rw [UnpackedFloat.ofUInt64, hword, UnpackedFloat.ofNat, UnpackedFloat.ofInt,
      UnpackedFloat.normalize, Int.compare_eq_gt.mpr (Int.natCast_pos.mpr hpos)]
    exact hround
  have hfactor : k.toUInt64.toFloat.toModel.unpack =
      .finite .positive (k * 2 ^ j) (-j) hM.pos := by
    change unpack Format.binary64 (pack Format.binary64 (UnpackedFloat.ofUInt64 _ _)) = _
    rw [hconverted, unpack_pack_exact hM hE (by omega)]
  change bitsOf (Float.ofScientific k false 0) = _
  rw [Float.ofScientific, dif_pos ⟨hk, by decide⟩]
  change pack Format.binary64 (mul Format.binary64 k.toUInt64.toFloat.toModel.unpack
    (Float.ofBits 0x3FF0000000000000).toModel.unpack) = _
  rw [hfactor, unpack_one]
  exact congrArg (pack Format.binary64) (roundWithAccuracy_exact hM hE 52 .positive)

theorem ofNat_of_ge (j : Nat) (hM : FullSignificand M) (hk : 2 ^ 53 ≤ M * 2 ^ j) :
    bitsOf (Float.ofNat (M * 2 ^ j)) = pack Format.binary64 (.finite .positive M j hM.pos) := by
  have hne : M * 2 ^ j ≠ 0 := (Nat.mul_pos hM.pos (Nat.two_pow_pos j)).ne'
  have hlog : ¬ (0 : Int) < -((2 ^ Format.binary64.exponentBits : Int) + (M * 2 ^ j).log2) := by
    change ¬ (0 : Int) < -(2048 + _)
    omega
  have hbits : Format.binary64.mantissaBits = 53 := rfl
  have hproduct := roundWithAccuracy_exact hM (show (-1074 : Int) ≤ j by omega) (j + 53) .positive
  have hexponent : (j : Int) - (j + 53 : Nat) = -53 + 0 := by omega
  rw [Nat.pow_add, ← Nat.mul_assoc, hexponent] at hproduct
  change bitsOf (Float.ofScientific (M * 2 ^ j) false 0) = _
  rw [Float.ofScientific, dif_neg fun h => Nat.not_lt.mpr hk h.1]
  change pack Format.binary64 (ofScientific Format.binary64 (M * 2 ^ j) 0) = _
  rw [ofScientific, dif_neg hne, if_neg (by decide), if_neg hlog, if_pos (Int.le_refl 0), mul]
  simp only [Nat.shiftLeft_eq, hbits, Int.toNat_zero, Nat.pow_zero, Nat.mul_one]
  exact congrArg (pack Format.binary64) hproduct

theorem wholeValue?_ofNat (hk : k.log2 < 1024) (hprecise : 2 ^ (k.log2 - 52) ∣ k) :
    wholeValue? (Float.ofNat k) = some (k : Int) := by
  by_cases hzero : k = 0
  · subst hzero
    decide +kernel
  · by_cases hsmall : k < 2 ^ 53
    · have hlog : k.log2 < 53 := (Nat.log2_lt hzero).mpr hsmall
      obtain ⟨j, hj⟩ := Nat.exists_eq_add_of_le (Nat.le_of_lt_succ hlog)
      have hne : k * 2 ^ j ≠ 0 := Nat.mul_ne_zero hzero (Nat.two_pow_pos j).ne'
      have hM := FullSignificand.of_log2 hne ((log2_mul_two_pow hzero j).trans hj.symm)
      refine wholeValue?_of_pack hM (by omega) (by omega) (ofNat_of_lt j hM hsmall (by omega)) ?_
      rw [Int.neg_neg, Int.toNat_natCast, Int.toNat_neg_natCast, Nat.pow_zero, Nat.mul_one]
    · have hlog : 53 ≤ k.log2 := (Nat.le_log2 hzero).mpr (Nat.not_lt.mp hsmall)
      obtain ⟨j, hj⟩ := Nat.exists_eq_add_of_le (show 52 ≤ k.log2 by omega)
      rw [hj, Nat.add_sub_cancel_left] at hprecise
      obtain ⟨M, rfl⟩ := dvd_iff_exists_eq_mul_left.mp hprecise
      have hne : M ≠ 0 := fun h => hzero (by rw [h, Nat.zero_mul])
      have hM := FullSignificand.of_log2 hne
        (Nat.add_right_cancel ((log2_mul_two_pow hne j).symm.trans hj))
      refine wholeValue?_of_pack hM (by omega) (by omega)
        (ofNat_of_ge j hM (Nat.not_lt.mp hsmall)) ?_
      rw [Int.toNat_neg_natCast, Int.toNat_natCast, Nat.pow_zero, Nat.mul_one]

/-! ### Integers to doubles -/

theorem log2_lt_of_lt_twos {j : Nat} (hj : 0 < j) (h : k < twos j) : k.log2 < j := by
  by_cases hzero : k = 0
  · rwa [hzero, Nat.log2_zero]
  · exact (Nat.log2_lt hzero).mpr h

theorem wholeValue?_ofInt (h : beyondDouble n = false) (hprecise : hasDoublePrecision n = true) :
    wholeValue? (Float.ofInt n) = some n := by
  have hlt : n.natAbs < twos 1024 :=
    Nat.lt_of_lt_of_le (Nat.not_le.mp (of_decide_eq_false h)) (Nat.sub_le _ _)
  have hk := wholeValue?_ofNat (log2_lt_of_lt_twos (by decide) hlt)
    (Nat.dvd_of_mod_eq_zero (of_decide_eq_true hprecise))
  cases n with
  | ofNat k => exact hk
  | negSucc k =>
    change wholeValue? (-Float.ofNat (Int.negSucc k).natAbs) = _
    rw [wholeValue?_neg, hk]
    rfl

/-- A whole double has at most 53 significant bits. -/
theorem exists_of_whole? {b : Binary} (hsignificand : b.significand < 2 ^ 53)
    (hexponent : b.exponent ≤ 971) (h : b.whole? = some k) :
    ∃ M j, M < 2 ^ 53 ∧ j ≤ 971 ∧ k = M * 2 ^ j := by
  rw [Binary.whole?] at h
  split_ifs at h with hdivides
  have hk : k * b.denominator = b.numerator := by
    rw [← Option.some.inj h, Nat.div_mul_cancel (Nat.dvd_of_mod_eq_zero hdivides)]
  by_cases hsign : 0 ≤ b.exponent
  · have hone : b.denominator = 1 := by
      rw [Binary.denominator, Int.toNat_of_nonpos (by omega)]
      rfl
    rw [hone, Nat.mul_one] at hk
    exact ⟨b.significand, b.exponent.toNat, hsignificand, by omega, hk⟩
  · have hnumerator : b.numerator = b.significand := by
      rw [Binary.numerator, Int.toNat_of_nonpos (by omega)]
      exact Nat.mul_one _
    have hle : k ≤ k * b.denominator := Nat.le_mul_of_pos_right k (Nat.two_pow_pos _)
    exact ⟨k, 0, by omega, by omega, (Nat.mul_one k).symm⟩

theorem magnitude_bounds {exponent mantissa : Nat} (hexponent : exponent < 2047)
    (hmantissa : mantissa < 2 ^ 52) : (magnitude exponent mantissa).significand < 2 ^ 53 ∧
      (magnitude exponent mantissa).exponent ≤ 971 := by
  unfold magnitude
  split_ifs
  · exact ⟨by dsimp only; omega, by dsimp only; omega⟩
  · have hfull : 2 ^ 52 + mantissa < 2 ^ 53 := by omega
    exact ⟨hfull, by dsimp only; omega⟩

theorem exists_of_wholeValue? (h : wholeValue? x = some n) :
    ∃ M j, M < 2 ^ 53 ∧ j ≤ 971 ∧ n.natAbs = M * 2 ^ j := by
  rw [wholeValue?_eq] at h
  by_cases hspecial : unpackExponent (bitsOf x) = -1#_
  · rw [if_pos hspecial] at h
    cases h
  · rw [if_neg hspecial] at h
    obtain ⟨_, hcast, rfl⟩ := Option.map_eq_some_iff.mp h
    obtain ⟨k, hwhole, hcast⟩ := Option.bind_eq_some_iff.mp hcast
    obtain rfl := Option.some.inj hcast
    have hexponent : (unpackExponent (bitsOf x)).toNat < 2047 := by
      have hlt : (unpackExponent (bitsOf x)).toNat < 2 ^ 11 := (unpackExponent (bitsOf x)).isLt
      have hne : (unpackExponent (bitsOf x)).toNat ≠ 2047 :=
        fun heq => hspecial (BitVec.eq_of_toNat_eq heq)
      omega
    obtain ⟨hsignificand, hbound⟩ := magnitude_bounds hexponent (unpackMantissa (bitsOf x)).isLt
    obtain ⟨M, j, hM, hj, hk⟩ := exists_of_whole? hsignificand hbound hwhole
    refine ⟨M, j, hM, hj, ?_⟩
    split_ifs
    · rw [Int.natAbs_neg, Int.natAbs_natCast, hk]
    · rw [Int.natAbs_natCast, hk]

theorem accepted_of_wholeValue? (h : wholeValue? x = some n) :
    beyondDouble n = false ∧ hasDoublePrecision n = true := by
  obtain ⟨M, j, hM, hj, hn⟩ := exists_of_wholeValue? h
  have hlargest : (twos 53 - 1) * twos 971 < twos 1024 - twos 970 := by decide +kernel
  have hpower (i : Nat) (hi : j ≤ i) : 2 ^ j ≤ twos i := Nat.pow_le_pow_right (by decide) hi
  have hle : M * 2 ^ j ≤ (twos 53 - 1) * twos 971 :=
    Nat.mul_le_mul (Nat.le_sub_one_of_lt hM) (hpower 971 hj)
  refine ⟨decide_eq_false (Nat.not_le.mpr ?_), decide_eq_true (Nat.mod_eq_zero_of_dvd ?_)⟩
  · rw [hn]
    exact Nat.lt_of_le_of_lt hle hlargest
  · by_cases hzero : M = 0
    · rw [hn, hzero, Nat.zero_mul]
      exact Nat.dvd_zero _
    · have hlog : M.log2 < 53 := (Nat.log2_lt hzero).mpr hM
      rw [hn, log2_mul_two_pow hzero]
      exact Nat.dvd_mul_left_of_dvd (Nat.pow_dvd_pow 2 (by omega)) M

theorem isDouble_iff : IsDouble n ↔ beyondDouble n = false ∧ hasDoublePrecision n = true := by
  constructor
  · rintro ⟨x, _, hwhole⟩
    exact accepted_of_wholeValue? hwhole
  · rintro ⟨hbounded, hprecise⟩
    refine ⟨Float.ofInt n, ?_, wholeValue?_ofInt hbounded hprecise⟩
    rw [doubleOf, hbounded]
    rfl

theorem isDouble_iff_of_ok (h : doubleOf n = .ok x) : IsDouble n ↔ wholeValue? x = some n := by
  constructor
  · rintro ⟨y, hy, hwhole⟩
    obtain rfl := Except.ok.inj (hy.symm.trans h)
    exact hwhole
  · exact fun hwhole => ⟨x, h, hwhole⟩

instance (n : Int) : Decidable (IsDouble n) := decidable_of_iff _ isDouble_iff.symm

/-- A literal is admitted if the double that it is rounded to compares equal to it. -/
theorem Number.subscript?_int (n : Int) : (Number.int n).subscript? =
    (doubleOf n).map fun x => if wholeValue? x = some n then some n else none := by
  rw [subscript?, doubleOf]
  cases hbounded : beyondDouble n with
  | true => rfl
  | false =>
    cases hprecise : hasDoublePrecision n with
    | true =>
      have hwhole := wholeValue?_ofInt hbounded hprecise
      simp [Except.map, hwhole]
    | false =>
      have hwhole : wholeValue? (Float.ofInt n) ≠ some n := fun h => by
        rw [(accepted_of_wholeValue? h).2] at hprecise
        cases hprecise
      simp [Except.map, hwhole]

end Causality
