import Causality.Expr.Basic

/-!
# The text of expressions

Binary operations and conditionals stand in parentheses, so no precedence is needed to read them.
An expression can be written if all of its literals can.
-/

namespace Causality

namespace Expr

mutual

def text : Expr → String
  | lit value => value.text
  | ref name [] => name
  | ref name (s :: rest) => name ++ "[" ++ ",".intercalate (text s :: texts rest) ++ "]"
  | unary .neg operand => "-" ++ text operand
  | unary .not operand => "not " ++ text operand
  | binary op left right => "(" ++ text left ++ " " ++ op.symbol ++ " " ++ text right ++ ")"
  | call function arguments => function.name ++ "(" ++ ", ".intercalate (texts arguments) ++ ")"
  | cond condition whenTrue whenFalse =>
    "(if " ++ text condition ++ " then " ++ text whenTrue ++ " else " ++ text whenFalse ++ ")"
  | der operand => "der(" ++ text operand ++ ")"
  | pre operand => "pre(" ++ text operand ++ ")"
  | foreign kind => kind ++ "()"
termination_by structural e => e

def texts : List Expr → List String
  | [] => []
  | e :: rest => text e :: texts rest
termination_by structural es => es

end

mutual

def isWritable : Expr → Bool
  | lit value => value.isWritable
  | ref _ subscripts => areWritable subscripts
  | unary _ operand => isWritable operand
  | binary _ left right => isWritable left && isWritable right
  | call _ arguments => areWritable arguments
  | cond condition whenTrue whenFalse =>
    isWritable condition && isWritable whenTrue && isWritable whenFalse
  | der operand => isWritable operand
  | pre operand => isWritable operand
  | foreign _ => true
termination_by structural e => e

def areWritable : List Expr → Bool
  | [] => true
  | e :: rest => isWritable e && areWritable rest
termination_by structural es => es

end

end Expr

end Causality
