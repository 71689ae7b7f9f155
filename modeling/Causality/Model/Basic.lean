import Causality.Equation.Residual
import Causality.Expr.Traversal
import Causality.Model.Declarations
import Causality.Model.Splitting

/-!
# Models

A draft becomes a model if its declarations are consistent, every equation can be expanded and
split into scalar ones, references to declared variables stay within their shapes, only states are
differentiated and choices are balanced. A `Model` keeps the expanded equations together with the
fact that they are those of its draft.
-/

namespace Causality

mutual

def Equation.exprs : Equation → List Expr
  | .simple lhs rhs => [lhs, rhs]
  | .loop _ _ _ _ body => Equation.exprsAll body
  | .choice _ branches none => Branch.exprsAll branches
  | .choice _ branches (some otherwise) =>
    Branch.exprsAll branches ++ Equation.exprsAll otherwise
termination_by structural e => e

def Equation.exprsAll : List Equation → List Expr
  | [] => []
  | e :: rest => Equation.exprs e ++ Equation.exprsAll rest
termination_by structural es => es

def Branch.exprsAll : List Branch → List Expr
  | [] => []
  | .mk condition body :: rest =>
    condition :: (Equation.exprsAll body ++ Branch.exprsAll rest)
termination_by structural bs => bs

end

/-- What stands before the first bracket of a name that has one. -/
def baseName? (name : String) : Option String :=
  let cs := name.toList
  if cs.contains '[' then some (String.ofList (cs.takeWhile (· ≠ '['))) else none

namespace Draft

/-- A name that is no scalar name and no declared one is refused if it looks like an element of a
declared variable. Other undeclared names are met later, when their equation is solved. -/
def checkReference (d : Draft) (label name : String) : Except Fault Unit :=
  if (d.owner? name).isSome ∨ (d.declared? name).isSome then .ok ()
  else
    match baseName? name with
    | none => .ok ()
    | some base =>
      match d.declared? base with
      | none => .ok ()
      | some v =>
        match v.shape with
        | none => .error (.notAnArray label base name)
        | some shape => .error (Fault.outOfRange label name base shape).raised

def checkSubscript (d : Draft) (label : String) : Expr → Except Fault Unit
  | .ref name _ => d.checkReference label name
  | _ => .ok ()

def checkDerivative (d : Draft) (label : String) : Expr → Except Fault Unit
  | .der (.ref name _) =>
    match d.owner? name <|> d.declared? name with
    | none => .ok ()
    | some v => if v.isState then .ok () else .error (.derOfNonState label name v.role)
  | .der operand => .error (Fault.derOfExpression label (.der operand)).raised
  | _ => .ok ()

def checkNodes (check : Expr → Except Fault Unit) (es : List Expr) : Except Fault Unit :=
  es.forM fun e => do (← e.walk).forM check

def checkEquation (d : Draft) (l : Labelled) : Except Fault Unit := do
  checkNodes (d.checkSubscript l.label) l.equation.exprs
  checkNodes (d.checkDerivative l.label) l.equation.exprs
  let _ ← l.equation.residuals

def expandEquation (d : Draft) (label : String) (e : Equation) :
    Except Fault (List Labelled) := do
  let rounds ← (← e.expand label).mapM fun l => l.equation.split d.vars l.label
  return rounds.flatten

/-- The scalar equations of a section. Labels count the declared equations from 0. -/
def expandSection (d : Draft) (s : Section) : Except Fault (List Labelled) := do
  let parts ← (d.equations s).zipIdx.mapM fun (e, i) =>
    d.expandEquation (s.label ++ "[" ++ toString i ++ "]") e
  return parts.flatten

def expandSections (d : Draft) : Except Fault (Section → List Labelled) := do
  let continuous ← d.expandSection .continuous
  let event ← d.expandSection .event
  let discrete ← d.expandSection .discrete
  let initial ← d.expandSection .initial
  return fun
    | .continuous => continuous
    | .event => event
    | .discrete => discrete
    | .initial => initial

/-- The scalar equations of a draft that passes every check. -/
def elaborate (d : Draft) : Except Fault (Section → List Labelled) := do
  checkNames [] d.vars
  checkPositions d.states
  let expanded ← d.expandSections
  Section.all.forM fun s => (expanded s).forM d.checkEquation
  return expanded

end Draft

structure Model extends Draft where
  expanded : Section → List Labelled
  accepted : toDraft.elaborate = .ok expanded

def Draft.check (d : Draft) : Except Fault Model :=
  match h : d.elaborate with
  | .ok expanded => .ok ⟨d, expanded, h⟩
  | .error fault => .error fault

end Causality
