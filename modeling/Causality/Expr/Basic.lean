import Causality.Number

/-!
# Expressions

Trees over literals and references to variables by name. A derivative is an operator applied to a
reference, not a variable of its own; `pre` stands for the left limit at an event.
-/

namespace Causality

inductive UnaryOp where
  | neg
  | not
deriving DecidableEq

inductive BinaryOp where
  | add
  | sub
  | mul
  | div
  | pow
  | lt
  | le
  | gt
  | ge
  | eq
  | ne
  | and
  | or
deriving DecidableEq

/-- The elementary functions. With one argument, `min` and `max` run over the elements of an
array. -/
inductive Elementary where
  | sin
  | cos
  | tan
  | asin
  | acos
  | atan
  | atan2
  | sinh
  | cosh
  | tanh
  | exp
  | log
  | log10
  | sqrt
  | abs
  | sign
  | floor
  | ceil
  | min
  | max
deriving DecidableEq

namespace BinaryOp

def all : List BinaryOp := [add, sub, mul, div, pow, lt, le, gt, ge, eq, ne, and, or]

def symbol : BinaryOp → String
  | add => "+"
  | sub => "-"
  | mul => "*"
  | div => "/"
  | pow => "^"
  | lt => "<"
  | le => "<="
  | gt => ">"
  | ge => ">="
  | eq => "=="
  | ne => "<>"
  | and => "and"
  | or => "or"

def ofSymbol? (s : String) : Option BinaryOp := all.find? fun op => op.symbol = s

def isArithmetic : BinaryOp → Bool
  | add | sub | mul | div | pow => true
  | _ => false

def name : BinaryOp → String
  | add => "ADD"
  | sub => "SUB"
  | mul => "MUL"
  | div => "DIV"
  | pow => "POW"
  | lt => "LT"
  | le => "LE"
  | gt => "GT"
  | ge => "GE"
  | eq => "EQ"
  | ne => "NE"
  | and => "AND"
  | or => "OR"

end BinaryOp

namespace Elementary

def all : List Elementary :=
  [sin, cos, tan, asin, acos, atan, atan2, sinh, cosh, tanh, exp, log, log10, sqrt, abs, sign,
   floor, ceil, min, max]

def name : Elementary → String
  | sin => "sin"
  | cos => "cos"
  | tan => "tan"
  | asin => "asin"
  | acos => "acos"
  | atan => "atan"
  | atan2 => "atan2"
  | sinh => "sinh"
  | cosh => "cosh"
  | tanh => "tanh"
  | exp => "exp"
  | log => "log"
  | log10 => "log10"
  | sqrt => "sqrt"
  | abs => "abs"
  | sign => "sign"
  | floor => "floor"
  | ceil => "ceil"
  | min => "min"
  | max => "max"

def ofName? (s : String) : Option Elementary := all.find? fun f => f.name = s

end Elementary

/-- A foreign node is of a kind that nothing here looks into: it can be carried and printed. -/
inductive Expr where
  | lit (value : Number)
  | ref (name : String) (subscripts : List Expr)
  | unary (op : UnaryOp) (operand : Expr)
  | binary (op : BinaryOp) (left right : Expr)
  | call (function : Elementary) (arguments : List Expr)
  | cond (condition whenTrue whenFalse : Expr)
  | der (operand : Expr)
  | pre (operand : Expr)
  | foreign (kind : String)

namespace Expr

/-- A reference without subscripts. -/
def var (name : String) : Expr := .ref name []

/-- A call of `min` or `max` with one argument, which makes a scalar of an array. -/
def isReduction : Expr → Bool
  | call .min [_] => true
  | call .max [_] => true
  | _ => false

def isDer : Expr → Bool
  | der _ => true
  | _ => false

end Expr

end Causality
