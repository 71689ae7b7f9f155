import Causality.Equation.Basic
import Causality.Fault

/-!
# Building equations

The checks that an equation passes when it is built, before it is part of a model.
-/

namespace Causality.Equation

/-- A simple equation from sides that may be missing. -/
def ofSides (lhs rhs : Option Expr) : Except Fault Equation :=
  match lhs, rhs with
  | some l, some r => .ok (simple l r)
  | _, _ => .error .missingSide

/-- A loop whose step is taken as it comes. -/
def ofRange (index : String) (start stop step : Int) (body : List Equation) :
    Except Fault Equation :=
  if index = "" then .error .missingIndexVariable
  else .ok (loop index start stop step body)

def forLoop (index : String) (start stop : Int) (body : List Equation) (step : Int) :
    Except Fault Equation :=
  if step = 0 then .error (.zeroStep index) else ofRange index start stop step body

end Causality.Equation
