import Causality.Expr.Folding
import Causality.Occurrence

/-!
# Affine forms

An expression that is affine in an unknown `u` is `a * u + b` with `a` and `b` free of `u`. If both
sides of an equation are, and the coefficients differ, the equation determines `u` explicitly.
Sums, differences, negations, products with one factor free of `u` and quotients by a divisor free
of `u` are looked into; every other operation on `u` is taken for not affine.
-/

namespace Causality

namespace Expr

/-- The node is the unknown: `x` for a value, `der(x)` for a derivative. Subscripts play no part. -/
def isOccurrence (o : Occurrence) : Expr → Bool
  | ref name _ => !o.isDerivative && name = o.name
  | der (ref name _) => o.isDerivative && name = o.name
  | _ => false

mutual

/-- The unknown occurs in the expression. A left limit hides both kinds of unknowns, a derivative
hides values. The search stops at the first occurrence. -/
def mentions (o : Occurrence) : Expr → Except Fault Bool
  | lit _ => .ok false
  | ref name subscripts =>
    if isOccurrence o (ref name subscripts) then .ok true else mentionsAny o subscripts
  | unary _ operand => mentions o operand
  | binary _ left right => do
    if ← mentions o left then return true
    mentions o right
  | call _ arguments => mentionsAny o arguments
  | cond condition whenTrue whenFalse => do
    if ← mentions o condition then return true
    if ← mentions o whenTrue then return true
    mentions o whenFalse
  | der operand =>
    if isOccurrence o (der operand) then .ok true
    else if o.isDerivative then mentions o operand
    else .ok false
  | pre _ => .ok false
  | foreign kind => .error (.unknownNode kind)
termination_by structural e => e

def mentionsAny (o : Occurrence) : List Expr → Except Fault Bool
  | [] => .ok false
  | e :: rest => do
    if ← mentions o e then return true
    mentionsAny o rest
termination_by structural es => es

end

end Expr

/-- The expression `coefficient * u + constant`. -/
structure Affine where
  coefficient : Expr
  constant : Expr

namespace Affine

def negation (f : Affine) : Affine := ⟨f.coefficient.negation, f.constant.negation⟩

def sum (f g : Affine) : Except Fault Affine := do
  return ⟨← f.coefficient.sum g.coefficient, ← f.constant.sum g.constant⟩

def difference (f g : Affine) : Except Fault Affine := do
  return ⟨← f.coefficient.difference g.coefficient, ← f.constant.difference g.constant⟩

def scaledLeft (factor : Expr) (f : Affine) : Except Fault Affine := do
  return ⟨← factor.product f.coefficient, ← factor.product f.constant⟩

def scaledRight (f : Affine) (factor : Expr) : Except Fault Affine := do
  return ⟨← f.coefficient.product factor, ← f.constant.product factor⟩

def dividedBy (f : Affine) (divisor : Expr) : Affine :=
  ⟨f.coefficient.quotient divisor, f.constant.quotient divisor⟩

def combine (operation : Affine → Affine → Except Fault Affine) :
    Option Affine → Option Affine → Except Fault (Option Affine)
  | some f, some g => some <$> operation f g
  | _, _ => .ok none

end Affine

namespace Expr

/-- An expression that is free of the unknown, or is the unknown, is affine in it. -/
def affineOr (u : Occurrence) (e : Expr) (otherwise : Unit → Except Fault (Option Affine)) :
    Except Fault (Option Affine) := do
  if !(← mentions u e) then return some ⟨zero, e⟩
  else if isOccurrence u e then return some ⟨one, zero⟩
  else otherwise ()

/-- The form of an expression, if it is seen to be affine in the unknown. -/
def affine? (u : Occurrence) : Expr → Except Fault (Option Affine)
  | unary .neg operand => affineOr u (unary .neg operand) fun _ => do
    return (← affine? u operand).map Affine.negation
  | binary .add left right => affineOr u (binary .add left right) fun _ => do
    let f ← affine? u left
    let g ← affine? u right
    Affine.combine Affine.sum f g
  | binary .sub left right => affineOr u (binary .sub left right) fun _ => do
    let f ← affine? u left
    let g ← affine? u right
    Affine.combine Affine.difference f g
  | binary .mul left right => affineOr u (binary .mul left right) fun _ => do
    if !(← mentions u left) then (← affine? u right).mapM (Affine.scaledLeft left)
    else if !(← mentions u right) then (← affine? u left).mapM (·.scaledRight right)
    else return none
  | binary .div left right => affineOr u (binary .div left right) fun _ => do
    if !(← mentions u right) then return (← affine? u left).map (·.dividedBy right)
    else return none
  | e => affineOr u e fun _ => return none
termination_by structural e => e

end Expr

/-- Where `a * u + b = c * u + d`, the unknown is `(d - b) / (a - c)`, unless the divisor is the
number zero. -/
def Affine.root? (f g : Affine) : Except Fault (Option Expr) := do
  let divisor ← f.coefficient.difference g.coefficient
  if divisor.isNumber 0 then return none
  else return some ((← g.constant.difference f.constant).quotient divisor)

/-- The unknown as an expression that is free of it, if both sides of the equation are affine. -/
def solveFor (u : Occurrence) (lhs rhs : Expr) : Except Fault (Option Expr) := do
  let f ← lhs.affine? u
  let g ← rhs.affine? u
  match f, g with
  | some f, some g => f.root? g
  | _, _ => return none

end Causality
