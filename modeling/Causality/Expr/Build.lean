import Causality.Fault

/-!
# Building relations

Comparisons and logical operations are built by their operator; arithmetic is not.
-/

namespace Causality.Expr

def relate (op : BinaryOp) (left right : Expr) : Except Fault Expr :=
  if op.isArithmetic then .error (.arithmeticComparison op) else .ok (binary op left right)

end Causality.Expr
