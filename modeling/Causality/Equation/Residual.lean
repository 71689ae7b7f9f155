import Causality.Equation.Basic
import Causality.Fault

/-!
# Residuals

A residual is one scalar condition on the unknowns. A simple equation is one residual. A choice
merges the equations of its branches into one residual per assigned variable, which depends on
every condition of the choice. So the branches must assign the same variables.
-/

namespace Causality

structure Residual where
  assigned : Option String
  exprs : List Expr
  /-- The number of simple equations merged into the residual; each defines the unknown once. -/
  multiplicity : Nat

namespace Residual

/-- The names that a branch assigns, for a message; `?` stands where there is none. -/
def listing (names : List (Option String)) : List String :=
  (names.map fun name => match name with
    | none | some "" => "?"
    | some n => n).mergeSort (· ≤ ·)

/-- The first of the other branches that does not assign what the first branch assigns. -/
def unlike? (first : List (Option String)) (others : List (List Residual)) :
    Option (List (Option String)) :=
  (others.map fun residuals => residuals.map (·.assigned)).find? fun names =>
    !names.isPerm first

/-- Residuals are paired by the variable they assign if that tells them apart, otherwise by their
place in the branch. -/
def partners (byName : Bool) (branches : List (List Residual)) (r : Residual) (place : Nat) :
    List Residual :=
  branches.filterMap fun residuals =>
    if byName then residuals.find? fun other => other.assigned = r.assigned
    else residuals[place]?

def merge (conditions : List Expr) (branches : List (List Residual)) : List Residual :=
  let first := branches.headD []
  let names : List (Option String) := first.map (·.assigned)
  let byName := !names.contains none && decide names.Nodup
  first.zipIdx.map fun (r, place) =>
    let merged := partners byName branches r place
    { assigned := r.assigned
      exprs := conditions ++ merged.flatMap (·.exprs)
      multiplicity := merged.foldr (fun other n => other.multiplicity + n) 0 }

/-- Merges the residuals of the bodies of a choice, given that they assign the same variables. -/
def balance (kind : ChoiceKind) (conditions : List Expr) (branches : List (List Residual)) :
    Except Fault (List Residual) :=
  let first := (branches.headD []).map (·.assigned)
  match unlike? first (branches.drop 1) with
  | some names => .error (.unbalanced kind (listing first) (listing names))
  | none => .ok (merge conditions branches)

end Residual

mutual

/-- An if-equation needs an else branch, a when-equation has none, and either has a branch with a
condition. -/
def Equation.residuals : Equation → Except Fault (List Residual)
  | .simple lhs rhs =>
    .ok [{ assigned := (Equation.simple lhs rhs).assignedName, exprs := [lhs, rhs],
           multiplicity := 1 }]
  | .loop _ _ _ _ _ => .error .unexpandedLoop
  | .choice .ifThen branches none =>
    .error (Fault.missingElse (.choice .ifThen branches none)).raised
  | .choice .whenThen branches (some otherwise) =>
    .error (Fault.elseInWhen (.choice .whenThen branches (some otherwise))).raised
  | .choice .ifThen branches (some otherwise) =>
    if branches.isEmpty then .error (.noBranches .ifThen)
    else do
      let bodies ← Branch.residuals branches
      let last ← Equation.residualsAll otherwise
      Residual.balance .ifThen (branches.map (·.condition)) (bodies ++ [last])
  | .choice .whenThen branches none =>
    if branches.isEmpty then .error (.noBranches .whenThen)
    else do
      let bodies ← Branch.residuals branches
      Residual.balance .whenThen (branches.map (·.condition)) bodies
termination_by structural e => e

def Equation.residualsAll : List Equation → Except Fault (List Residual)
  | [] => .ok []
  | e :: rest => do
    let first ← Equation.residuals e
    let others ← Equation.residualsAll rest
    return first ++ others
termination_by structural es => es

/-- The residuals of each branch. -/
def Branch.residuals : List Branch → Except Fault (List (List Residual))
  | [] => .ok []
  | .mk _ body :: rest => do
    let first ← Equation.residualsAll body
    let others ← Branch.residuals rest
    return first :: others
termination_by structural bs => bs

end

end Causality
