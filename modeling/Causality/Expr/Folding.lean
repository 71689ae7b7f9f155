import Causality.Fault

/-!
# Folding arithmetic

Operations on expressions that drop neutral operands and compute with literals. A quotient is
never computed, so that no digit is lost. Truth values are left alone: they are no numbers here.
-/

namespace Causality.Expr

def zero : Expr := .lit (.real 0.0)

def one : Expr := .lit (.real 1.0)

/-- The expression is a literal number with that value. -/
def isNumber (n : Int) : Expr → Bool
  | lit value => !value.isBool && value.same (.int n)
  | _ => false

/-- The value of a literal number. -/
def number? : Expr → Option Number
  | lit value => if value.isBool then none else some value
  | _ => none

/-- Computes with two literal numbers, and builds a node for any other operands. -/
def compute (op : BinaryOp) (operation : Number → Number → Except ConversionFault Number)
    (a b : Expr) : Except Fault Expr :=
  match a.number?, b.number? with
  | some x, some y => ((operation x y).map lit).mapError Fault.conversion
  | _, _ => .ok (binary op a b)

def negation : Expr → Expr
  | lit value => if value.isBool then unary .neg (lit value) else lit value.neg
  | unary .neg operand => operand
  | e => unary .neg e

def sum (a b : Expr) : Except Fault Expr :=
  if a.isNumber 0 then .ok b
  else if b.isNumber 0 then .ok a
  else compute .add Number.add a b

def difference (a b : Expr) : Except Fault Expr :=
  if b.isNumber 0 then .ok a
  else if a.isNumber 0 then .ok b.negation
  else compute .sub Number.sub a b

def product (a b : Expr) : Except Fault Expr :=
  if a.isNumber 0 || b.isNumber 0 then .ok zero
  else if a.isNumber 1 then .ok b
  else if b.isNumber 1 then .ok a
  else compute .mul Number.mul a b

def quotient (a b : Expr) : Expr :=
  if b.isNumber 1 then a
  else if a.isNumber 0 then zero
  else if b.isNumber (-1) then a.negation
  else binary .div a b

end Causality.Expr
