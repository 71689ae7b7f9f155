import Causality.Element
import Causality.Fault

/-!
# Constant subscripts

A subscript is a constant integer expression: whole literals, unary minus, sums, differences and
products. Resolving turns a reference with such subscripts into a reference to the element that
they name, `x[1 + 1]` into `x[2]`. The name holds the digits of the subscripts, so it has to be
possible to write them.
-/

namespace Causality.Expr

/-- Both operands are evaluated before the operator is looked at. -/
def evaluateInt : Expr → Except Fault Int
  | lit value =>
    match value.subscript? with
    | .ok (some n) => .ok n
    | .ok none => .error (Fault.nonIntegerSubscript (lit value)).raised
    | .error cause => .error (.conversion cause)
  | unary .neg operand => do return -(← evaluateInt operand)
  | binary op left right => do
    let m ← evaluateInt left
    let n ← evaluateInt right
    match op with
    | .add => return m + n
    | .sub => return m - n
    | .mul => return m * n
    | _ => throw (Fault.variableSubscript (binary op left right)).raised
  | e => .error (Fault.variableSubscript e).raised

/-- The element of an array with the given subscripts. -/
def element (name : String) (indices : List Int) : Except Fault Expr :=
  if indices.all Causality.isWritable then .ok (var (elementName name indices))
  else .error .unwritableInteger

mutual

/-- Resolves every reference outside of subscripts. -/
def resolve : Expr → Except Fault Expr
  | lit value => .ok (lit value)
  | ref name subscripts =>
    if subscripts.isEmpty then .ok (ref name subscripts)
    else do element name (← subscripts.mapM evaluateInt)
  | unary op operand => do return unary op (← resolve operand)
  | binary op left right => do
    let l ← resolve left
    let r ← resolve right
    return binary op l r
  | call function arguments => do return call function (← resolveAll arguments)
  | cond condition whenTrue whenFalse => do
    let c ← resolve condition
    let t ← resolve whenTrue
    let f ← resolve whenFalse
    return cond c t f
  | der operand => do return der (← resolve operand)
  | pre operand => do return pre (← resolve operand)
  | foreign kind => .error (.unknownNode kind)
termination_by structural e => e

def resolveAll : List Expr → Except Fault (List Expr)
  | [] => .ok []
  | e :: rest => do
    let first ← resolve e
    let others ← resolveAll rest
    return first :: others
termination_by structural es => es

end

end Causality.Expr
