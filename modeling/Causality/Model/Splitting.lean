import Causality.Equation.Expansion
import Causality.Model.Draft

/-!
# Array equations

A simple equation between arrays of one shape stands for one equation per element. Arrays inside a
reduction stay whole. A scalar on the left side is not equated with an array, while other scalars
are the same at every element.
-/

namespace Causality

namespace Expr

mutual

/-- The names referenced outside of reductions, in pre-order. -/
def elementwiseNames : Expr → List String
  | lit _ => []
  | ref name subscripts => name :: elementwiseNamesAll subscripts
  | unary _ operand => elementwiseNames operand
  | binary _ left right => elementwiseNames left ++ elementwiseNames right
  | call function arguments =>
    if isReduction (call function arguments) then [] else elementwiseNamesAll arguments
  | cond condition whenTrue whenFalse =>
    elementwiseNames condition ++ elementwiseNames whenTrue ++ elementwiseNames whenFalse
  | der operand => elementwiseNames operand
  | pre operand => elementwiseNames operand
  | foreign _ => []
termination_by structural e => e

def elementwiseNamesAll : List Expr → List String
  | [] => []
  | e :: rest => elementwiseNames e ++ elementwiseNamesAll rest
termination_by structural es => es

end

def targetName? : Expr → Option String
  | ref name _ => some name
  | der (ref name _) => some name
  | _ => none

end Expr

def shapeExtents (shape : List Whole) : List Int := shape.map Whole.toInt

/-- The arrays that an equation relates element by element, with their shapes, in the order in
which they are met. -/
def arraysOf (vars : List Variable) (lhs rhs : Expr) : List (String × List Whole) :=
  (lhs.elementwiseNames ++ rhs.elementwiseNames).eraseDups.filterMap fun name =>
    (declaredAs? vars name).bind fun v => v.shape.map fun shape => (name, shape)

/-- Each of the arrays stands for its element. -/
def elementSubstitution (arrays : List String) (indices : List Int) : Substitution :=
  fun name => if arrays.contains name then some (.var (elementName name indices)) else none

def scalarTarget? (vars : List Variable) (arrays : List String) (lhs : Expr) :
    Option String :=
  lhs.targetName?.filter fun name =>
    !arrays.contains name && (ownerOf? vars name).isSome

def splitSimple (vars : List Variable) (label : String) (lhs rhs : Expr) :
    Except Fault (List Labelled) :=
  match arraysOf vars lhs rhs with
  | [] => .ok [⟨label, .simple lhs rhs⟩]
  | (first, shape) :: others =>
    let arrays := (first, shape) :: others
    let names := arrays.map (·.1)
    if others.any fun (_, other) => shapeExtents other ≠ shapeExtents shape then
      .error (Fault.differentShapes label (.simple lhs rhs) arrays).raised
    else
      match scalarTarget? vars names lhs with
      | some name => .error (Fault.scalarWithArray label name (.simple lhs rhs)).raised
      | none =>
        (rowMajor ((shapeExtents shape).map Int.toNat)).mapM fun indices => do
          let l ← lhs.substitute (elementSubstitution names indices) true
          let r ← rhs.substitute (elementSubstitution names indices) true
          return ⟨elementName label indices, .simple l r⟩

mutual

/-- Splits the array equations of an expanded equation. Those of a branch stay in the branch. -/
def Equation.split (vars : List Variable) (label : String) :
    Equation → Except Fault (List Labelled)
  | .simple lhs rhs => splitSimple vars label lhs rhs
  | .loop index start stop step body => .ok [⟨label, .loop index start stop step body⟩]
  | .choice kind branches none => do
    return [⟨label, .choice kind (← Branch.splitAll vars label branches) none⟩]
  | .choice kind branches (some otherwise) =>
    if branches.isEmpty then .ok [⟨label, .choice kind branches (some otherwise)⟩]
    else do
      let bs ← Branch.splitAll vars label branches
      let es ← Equation.splitAll vars label otherwise
      return [⟨label, .choice kind bs (some es)⟩]
termination_by structural e => e

def Equation.splitAll (vars : List Variable) (label : String) :
    List Equation → Except Fault (List Equation)
  | [] => .ok []
  | e :: rest => do
    let first ← Equation.split vars label e
    let others ← Equation.splitAll vars label rest
    return first.map (·.equation) ++ others
termination_by structural es => es

def Branch.splitAll (vars : List Variable) (label : String) :
    List Branch → Except Fault (List Branch)
  | [] => .ok []
  | .mk condition body :: rest => do
    let es ← Equation.splitAll vars label body
    let others ← Branch.splitAll vars label rest
    return .mk condition es :: others
termination_by structural bs => bs

end

end Causality
