import Causality.Decimal.Shortest

/-!
# Layout of decimals

Where the point goes, when an exponent is written, and how the special values are spelled. The
digits come from `Binary.shortest`; a `Layout` holds the decisions that are left.
-/

namespace Causality.Decimal

structure Layout where
  /-- Leading exponents from here on are written positionally. -/
  plainFrom : Int
  /-- Leading exponents below this are written positionally. -/
  plainBelow : Int
  /-- The exponent has at least this many digits. -/
  exponentWidth : Nat
  infinity : String
  notANumber : String

namespace Layout

def zeros (n : Nat) : String := String.ofList (List.replicate n '0')

def exponentText (l : Layout) (e : Int) : String :=
  let digits := toString e.natAbs
  (if e < 0 then "-" else "+") ++ zeros (l.exponentWidth - digits.length) ++ digits

/-- A decimal other than zero, without its sign. A whole number keeps `.0`. -/
def decimalText (l : Layout) (d : Scaled) : String :=
  let digits := (Nat.toDigits 10 d.digits)
  let leading := digits.length + d.exponent - 1
  if l.plainFrom ≤ leading ∧ leading < l.plainBelow then
    if 0 ≤ d.exponent then String.ofList digits ++ zeros d.exponent.toNat ++ ".0"
    else if 0 ≤ leading then
      String.ofList (digits.take (leading.toNat + 1)) ++ "." ++
        String.ofList (digits.drop (leading.toNat + 1))
    else "0." ++ zeros (-leading - 1).toNat ++ String.ofList digits
  else
    let fraction := digits.drop 1
    String.ofList (digits.take 1) ++
      (if fraction.isEmpty then "" else "." ++ String.ofList fraction) ++
      "e" ++ l.exponentText leading

/-- The text of a double. Zero keeps its sign. -/
def text (l : Layout) (x : Float) : String :=
  if x.isNaN then l.notANumber
  else
    let sign := if x.toBits >>> 63 = 1 then "-" else ""
    if x.isInf then sign ++ l.infinity
    else
      let magnitude := Binary.ofBits x.toBits
      sign ++ if magnitude.significand = 0 then "0.0" else l.decimalText magnitude.shortest

end Layout

end Causality.Decimal
