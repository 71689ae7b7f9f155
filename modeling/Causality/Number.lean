import Causality.Decimal.Layout

/-!
# Numbers

Literals and variable attributes are integers of any size, doubles or truth values. Integers are
exact. An operation with a double is an operation on doubles, so its integer operand must round
to a finite one. Integers and doubles are compared by their exact values, and a truth value
counts as 0 or 1.
-/

namespace Causality

open Decimal (Binary Layout)

/-- Why a number has no counterpart of another kind. -/
inductive ConversionFault where
  | tooLarge
  | infinite
  | notANumber
deriving DecidableEq

inductive Number where
  | int (value : Int)
  | real (value : Float)
  | bool (value : Bool)
deriving DecidableEq

def wholeValue? (x : Float) : Option Int :=
  if x.isNaN ∨ x.isInf then none
  else (Binary.ofBits x.toBits).whole?.map fun n => if x.toBits >>> 63 = 1 then -(n : Int) else n

/-- The integers that round beyond the largest double: from half a unit above it on. -/
def beyondDouble (n : Int) : Bool := Decimal.twos 1024 - Decimal.twos 970 ≤ n.natAbs

/-- The integer has at most 53 significant bits. -/
def hasDoublePrecision (n : Int) : Bool := n.natAbs % Decimal.twos (n.natAbs.log2 - 52) = 0

def doubleOf (n : Int) : Except ConversionFault Float :=
  if beyondDouble n then .error .tooLarge else .ok (Float.ofInt n)

/-- The most decimal digits that an integer is written with. -/
def digitLimit : Nat := 4300

def isWritable (n : Int) : Bool := (Nat.toDigits 10 n.natAbs).length ≤ digitLimit

def boolText (b : Bool) : String := if b then "True" else "False"

namespace Number

/-- Doubles have the fewest digits that identify them, positionally between 0.0001 and 10 ^ 16,
otherwise with a signed exponent of at least two digits. -/
def layout : Layout where
  plainFrom := -4
  plainBelow := 16
  exponentWidth := 2
  infinity := "inf"
  notANumber := "nan"

def text : Number → String
  | int n => toString n
  | real x => layout.text x
  | bool b => boolText b

/-- Doubles and truth values can always be written. -/
def isWritable : Number → Bool
  | int n => Causality.isWritable n
  | _ => true

def isBool : Number → Bool
  | bool _ => true
  | _ => false

def operand : Number → Int ⊕ Float
  | int n => .inl n
  | real x => .inr x
  | bool b => .inl b.toInt

/-- Equality of values, across the kinds. -/
def same (a b : Number) : Bool :=
  match a.operand, b.operand with
  | .inl m, .inl n => m = n
  | .inl m, .inr y => wholeValue? y = some m
  | .inr x, .inl n => wholeValue? x = some n
  | .inr x, .inr y => x == y

def combine (exact : Int → Int → Int) (rounded : Float → Float → Float) (a b : Number) :
    Except ConversionFault Number :=
  match a.operand, b.operand with
  | .inl m, .inl n => .ok (int (exact m n))
  | .inl m, .inr y => do return real (rounded (← doubleOf m) y)
  | .inr x, .inl n => do return real (rounded x (← doubleOf n))
  | .inr x, .inr y => .ok (real (rounded x y))

def add : Number → Number → Except ConversionFault Number := combine (· + ·) (· + ·)

def sub : Number → Number → Except ConversionFault Number := combine (· - ·) (· - ·)

def mul : Number → Number → Except ConversionFault Number := combine (· * ·) (· * ·)

def neg (a : Number) : Number :=
  match a.operand with
  | .inl n => int (-n)
  | .inr x => real (-x)

/-- The value of a subscript: a whole number that a double holds exactly. -/
def subscript? : Number → Except ConversionFault (Option Int)
  | int n =>
    if beyondDouble n then .error .tooLarge
    else .ok (if hasDoublePrecision n then some n else none)
  | real x =>
    if x.isNaN then .error .notANumber
    else if x.isInf then .error .infinite
    else .ok (wholeValue? x)
  | bool _ => .ok none

end Number

/-- A number that is counted with: an integer, or a truth value that stands for 0 or 1. -/
inductive Whole where
  | int (value : Int)
  | bool (value : Bool)
deriving DecidableEq

namespace Whole

def toInt : Whole → Int
  | int n => n
  | bool b => b.toInt

def text : Whole → String
  | int n => toString n
  | bool b => boolText b

def isWritable : Whole → Bool
  | int n => Causality.isWritable n
  | bool _ => true

def toNumber : Whole → Number
  | int n => .int n
  | bool b => .bool b

end Whole

end Causality
