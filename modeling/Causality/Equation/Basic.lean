import Causality.Expr.Basic

/-!
# Equations

An equation relates two expressions, repeats its body over an integer range, or chooses a body by
conditions. Choices come in two kinds: of an if-equation one body always holds, a when-equation
acts at the instants its conditions become true.
-/

namespace Causality

inductive ChoiceKind where
  | ifThen
  | whenThen
deriving DecidableEq

def ChoiceKind.keyword : ChoiceKind → String
  | ifThen => "if"
  | whenThen => "when"

mutual

/-- The range of a loop is `start`, `start + step`, … up to `stop`, which is included. -/
inductive Equation where
  | simple (lhs rhs : Expr)
  | loop (index : String) (start stop step : Int) (body : List Equation)
  | choice (kind : ChoiceKind) (branches : List Branch) (otherwise : Option (List Equation))

inductive Branch where
  | mk (condition : Expr) (body : List Equation)

end

namespace Branch

def condition : Branch → Expr
  | mk c _ => c

def body : Branch → List Equation
  | mk _ b => b

end Branch

namespace Equation

def isSimple : Equation → Bool
  | simple _ _ => true
  | _ => false

/-- The variable on the left side: `x`, or `der(x)` for a derivative. -/
def assignedName : Equation → Option String
  | simple (.ref name []) _ => some name
  | simple (.der (.ref name _)) _ => some ("der(" ++ name ++ ")")
  | _ => none

end Equation

end Causality
