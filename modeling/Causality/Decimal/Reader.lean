/-!
# Reading decimals

Accepted are a sign, digits with at most one point, and an exponent, as well as the words for
infinity and NaN in any case. A value is rounded to the nearest double, ties to even; beyond the
range it becomes infinite or zero.
-/

namespace Causality.Decimal

def ofDigits (ds : List Char) : Nat :=
  ds.foldl (fun n c => 10 * n + (c.toNat - '0'.toNat)) 0

/-- The double nearest to `m * 10 ^ e`. The range is decided first, so that no power of ten
beyond it is ever formed. -/
def nearest (m : Nat) (e : Int) : Float :=
  let leading := (Nat.toDigits 10 m).length + e
  if m = 0 then 0
  else if 400 < leading then 1 / 0
  else if leading < -400 then 0
  else Float.ofScientific m (e < 0) e.natAbs

def signed : List Char → Bool × List Char
  | '-' :: cs => (true, cs)
  | '+' :: cs => (false, cs)
  | cs => (false, cs)

def exponent? : List Char → Option Int
  | [] => some 0
  | c :: cs =>
    let (negative, ds) := signed cs
    if c.toLower = 'e' ∧ ds ≠ [] ∧ ds.all Char.isDigit then
      some (if negative then -(ofDigits ds : Int) else ofDigits ds)
    else none

/-- Digits, a point, digits, an exponent; one of the two runs of digits may be empty. -/
def magnitude? (cs : List Char) : Option Float :=
  let units := cs.takeWhile Char.isDigit
  let rest := cs.dropWhile Char.isDigit
  let (tenths, rest) : List Char × List Char := match rest with
    | '.' :: cs => (cs.takeWhile Char.isDigit, cs.dropWhile Char.isDigit)
    | _ => ([], rest)
  if units.isEmpty ∧ tenths.isEmpty then none
  else (exponent? rest).map fun e => nearest (ofDigits (units ++ tenths)) (e - tenths.length)

def float? (s : String) : Option Float :=
  let (negative, cs) := signed s.toList
  let word := String.ofList (cs.map Char.toLower)
  let value :=
    if word = "inf" ∨ word = "infinity" then some (1 / 0)
    else if word = "nan" then some (0 / 0)
    else magnitude? cs
  value.map fun x => if negative then -x else x

end Causality.Decimal
