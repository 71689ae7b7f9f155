import Causality.Equation.Basic
import Causality.Expr.Format

/-!
# The text of equations

An equation can be written if all integers in it can, those of its loops included.
-/

namespace Causality

/-- The range of a loop; a step of 1 is left out. -/
def rangeText (start stop step : Int) : String :=
  if step = 1 then s!"{start}:{stop}" else s!"{start}:{step}:{stop}"

mutual

def Equation.text : Equation → String
  | .simple lhs rhs => lhs.text ++ " = " ++ rhs.text
  | .loop index start stop step body =>
    "for " ++ index ++ " in " ++ rangeText start stop step ++ " loop " ++
      "; ".intercalate (Equation.texts body) ++ "; end for"
  | .choice kind branches none =>
    " ".intercalate (Branch.texts kind.keyword kind.keyword branches ++ ["end " ++ kind.keyword])
  | .choice kind branches (some otherwise) =>
    " ".intercalate (Branch.texts kind.keyword kind.keyword branches ++
      ["else " ++ "; ".intercalate (Equation.texts otherwise) ++ ";", "end " ++ kind.keyword])
termination_by structural e => e

def Equation.texts : List Equation → List String
  | [] => []
  | e :: rest => Equation.text e :: Equation.texts rest
termination_by structural es => es

/-- The branches, of which the first opens with `head` and the others with `else` and the
keyword. -/
def Branch.texts (keyword head : String) : List Branch → List String
  | [] => []
  | .mk condition body :: rest =>
    (head ++ " " ++ condition.text ++ " then " ++ "; ".intercalate (Equation.texts body) ++ ";")
      :: Branch.texts keyword ("else" ++ keyword) rest
termination_by structural bs => bs

end

mutual

def Equation.isWritable : Equation → Bool
  | .simple lhs rhs => lhs.isWritable && rhs.isWritable
  | .loop _ start stop step body =>
    Causality.isWritable start && Causality.isWritable stop && Causality.isWritable step &&
      Equation.areWritable body
  | .choice _ branches none => Branch.areWritable branches
  | .choice _ branches (some otherwise) =>
    Branch.areWritable branches && Equation.areWritable otherwise
termination_by structural e => e

def Equation.areWritable : List Equation → Bool
  | [] => true
  | e :: rest => Equation.isWritable e && Equation.areWritable rest
termination_by structural es => es

def Branch.areWritable : List Branch → Bool
  | [] => true
  | .mk condition body :: rest =>
    condition.isWritable && Equation.areWritable body && Branch.areWritable rest
termination_by structural bs => bs

end

end Causality
