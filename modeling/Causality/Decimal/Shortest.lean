import Causality.Decimal.Binary

/-!
# The shortest decimal that reads back

`Binary.shortest x` has the fewest digits among the decimals that round to `x`, and among those
it is the nearest to `x`; of two equally near the one with the even last digit. Seventeen digits
always suffice for a double.
-/

namespace Causality.Decimal

/-- Moves the zeros at the end of the digits into the exponent. The first argument bounds how
many. -/
def Scaled.trim : Nat → Scaled → Scaled
  | 0, d => d
  | n + 1, d =>
    if d.digits ≠ 0 ∧ d.digits % 10 = 0 then trim n ⟨d.digits / 10, d.exponent + 1⟩ else d

namespace Binary

/-- The least `j ≤ bound` with `den ≤ num * 10 ^ j`, counted up from `j`. -/
def leadingZeros (num den : Nat) : Nat → Nat → Nat
  | 0, j => j
  | bound + 1, j => if den ≤ num then j else leadingZeros (num * 10) den bound (j + 1)

/-- The least `k` with `x < 10 ^ k`, for a value other than zero. -/
def decimalPlaces (x : Binary) : Int :=
  if x.denominator ≤ x.numerator then
    (Nat.toDigits 10 (x.numerator / x.denominator)).length
  else 1 - (leadingZeros x.numerator x.denominator 400 0 : Int)

/-- The value divided by `10 ^ g`, rounded down. -/
def floorOnGrid (x : Binary) (g : Int) : Nat :=
  x.numerator * tens (-g).toNat / (x.denominator * tens g.toNat)

/-- The better of the two neighbours `n` and `n + 1` of the value on the grid `10 ^ g`, among
those that read back. -/
def neighbourOnGrid? (x : Binary) (g : Int) : Option Scaled :=
  let n := x.floorOnGrid g
  let lower : Scaled := ⟨n, g⟩
  let upper : Scaled := ⟨n + 1, g⟩
  match x.readsBack lower, x.readsBack upper with
  | false, false => none
  | true, false => some lower
  | false, true => some upper
  | true, true =>
    match compareScaled ⟨2 * n + 1, g⟩ (2 * x.significand) x.exponent with
    | .gt => some lower
    | .lt => some upper
    | .eq => some (if n % 2 = 0 then lower else upper)

def exactDecimal (x : Binary) : Scaled :=
  if 0 ≤ x.exponent then ⟨x.numerator, 0⟩
  else ⟨x.significand * Nat.pow 5 (-x.exponent).toNat, x.exponent⟩

def shortest (x : Binary) : Scaled :=
  let places := x.decimalPlaces
  let found := (List.range 17).findSome? fun (n : Nat) => x.neighbourOnGrid? (places - (n + 1))
  (found.getD x.exactDecimal).trim 400

end Binary

end Causality.Decimal
