import Causality.Equation.Basic
import Causality.Expr.Substitution
import Causality.Expr.Subscript
import Causality.Progression

/-!
# Expansion of loops

Loops are unrolled and constant subscripts resolved, so that what is left are simple equations and
choices over scalar names. An equation of an iteration is labelled by the value of the index and
its place in the body, `[i=2].0`, so the value has to be one that can be written.
-/

namespace Causality

structure Labelled where
  label : String
  equation : Equation

/-- The expression as it reads in scalar names, inside loops that bind `σ`. -/
def Expr.scalar (σ : Substitution) (e : Expr) : Except Fault Expr := do
  (← e.substitute σ false).resolve

/-- The label of one iteration. It is written once for each equation of the body. -/
def roundLabel (label index : String) (body : List Equation) (i : Int) : Except Fault String :=
  whenWritable (body.isEmpty || isWritable i) (label ++ "[" ++ index ++ "=" ++ toString i ++ "]")

theorem roundLabel_eq_ok {label index text : String} {body : List Equation} {i : Int} :
    roundLabel label index body i = .ok text ↔ (body = [] ∨ isWritable i = true) ∧
      label ++ "[" ++ index ++ "=" ++ toString i ++ "]" = text := by
  simp [roundLabel, whenWritable_eq_ok]

theorem roundLabel_eq_error {label index : String} {body : List Equation} {i : Int}
    {fault : Fault} : roundLabel label index body i = .error fault ↔
      (body ≠ [] ∧ isWritable i = false) ∧ fault = .unwritableInteger := by
  simp [roundLabel, whenWritable_eq_error]

mutual

def Equation.expandUnder (σ : Substitution) (label : String) :
    Equation → Except Fault (List Labelled)
  | .simple lhs rhs => do
    let l ← lhs.scalar σ
    let r ← rhs.scalar σ
    return [⟨label, .simple l r⟩]
  | .loop index start stop step body =>
    if step = 0 then .error .zeroRangeStep
    else do
      let rounds ← (Progression.upTo start stop step).mapM fun i => do
        Equation.expandAll (σ.bind index (.lit (.int i)))
          (← roundLabel label index body i) 0 body
      return rounds.flatten
  | .choice kind branches none => do
    return [⟨label, .choice kind (← Branch.expandAll σ branches) none⟩]
  | .choice kind branches (some otherwise) => do
    let bs ← Branch.expandAll σ branches
    let es ← Equation.expandAll σ "" 0 otherwise
    return [⟨label, .choice kind bs (some (es.map (·.equation)))⟩]
termination_by structural e => e

/-- The equations of a body, of which the first is the `k`-th. -/
def Equation.expandAll (σ : Substitution) (label : String) (k : Nat) :
    List Equation → Except Fault (List Labelled)
  | [] => .ok []
  | e :: rest => do
    let first ← Equation.expandUnder σ (label ++ "." ++ toString k) e
    let others ← Equation.expandAll σ label (k + 1) rest
    return first ++ others
termination_by structural es => es

def Branch.expandAll (σ : Substitution) : List Branch → Except Fault (List Branch)
  | [] => .ok []
  | .mk condition body :: rest => do
    let c ← condition.scalar σ
    let es ← Equation.expandAll σ "" 0 body
    let others ← Branch.expandAll σ rest
    return .mk c (es.map (·.equation)) :: others
termination_by structural bs => bs

end

namespace Equation

def expand (e : Equation) (label : String) : Except Fault (List Labelled) :=
  e.expandUnder Substitution.none label

end Equation

end Causality
