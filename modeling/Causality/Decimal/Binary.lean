/-!
# Finite binary64 magnitudes

A finite double without its sign is `significand * 2 ^ exponent`. The decimals that read back as
that double fill an interval around it; `readsBack` decides membership exactly, by comparing
natural numbers only.
-/

namespace Causality.Decimal

def twos (k : Nat) : Nat := Nat.pow 2 k

def tens (k : Nat) : Nat := Nat.pow 10 k

/-- The magnitude `significand * 2 ^ exponent` of a finite double. -/
structure Binary where
  significand : Nat
  exponent : Int
  /-- Below a power of two the doubles lie twice as close as above it. -/
  narrowBelow : Bool
deriving DecidableEq

/-- The decimal `digits * 10 ^ exponent`. -/
structure Scaled where
  digits : Nat
  exponent : Int
deriving DecidableEq

namespace Binary

/-- Reads the magnitude off the bits. Infinities and NaN are no magnitudes and are told apart
before. -/
def ofBits (bits : UInt64) : Binary :=
  let biased := ((bits >>> 52) &&& 0x7FF).toNat
  let fraction := (bits &&& 0xFFFFFFFFFFFFF).toNat
  if biased = 0 then ⟨fraction, -1074, false⟩
  else ⟨twos 52 + fraction, (biased : Int) - 1075, fraction = 0 ∧ 1 < biased⟩

def numerator (x : Binary) : Nat := x.significand * twos x.exponent.toNat

def denominator (x : Binary) : Nat := twos (-x.exponent).toNat

def whole? (x : Binary) : Option Nat :=
  if x.numerator % x.denominator = 0 then some (x.numerator / x.denominator) else none

/-- Compares `d` with `n * 2 ^ e`. -/
def compareScaled (d : Scaled) (n : Nat) (e : Int) : Ordering :=
  compare (d.digits * tens d.exponent.toNat * twos (-e).toNat)
    (n * twos e.toNat * tens (-d.exponent).toNat)

/-- The decimal rounds to `x`, to nearest with ties to the even significand. The bounds of the
interval lie halfway to the neighbours, so they are written in quarters of a unit. -/
def readsBack (x : Binary) (d : Scaled) : Bool :=
  let below := if x.narrowBelow then 4 * x.significand - 1 else 4 * x.significand - 2
  let above := 4 * x.significand + 2
  let closed := x.significand % 2 = 0
  let low := compareScaled d below (x.exponent - 2)
  let high := compareScaled d above (x.exponent - 2)
  (low = .gt ∨ (closed ∧ low = .eq)) ∧ (high = .lt ∨ (closed ∧ high = .eq))

end Binary

end Causality.Decimal
