import Causality.Equation.Basic
import Causality.Variable

/-!
# Drafts of models

A draft lists variables and equations by section, before any check. A name in an equation is
looked up in two ways: as the declared name of a variable, and as one of the scalar names that
variables cover.
-/

namespace Causality

/-- Continuous, discrete and initial equations are solved for unknowns; event equations reset
states at events. -/
inductive Section where
  | continuous
  | event
  | discrete
  | initial
deriving DecidableEq

namespace Section

def all : List Section := [continuous, event, discrete, initial]

def label : Section → String
  | continuous => "eq"
  | event => "event"
  | discrete => "disc"
  | initial => "init"

def title : Section → String
  | continuous => "Continuous"
  | event => "Event"
  | discrete => "Discrete"
  | initial => "Initial"

end Section

structure Draft where
  name : String
  vars : List Variable
  equations : Section → List Equation
  description : String

def declaredAs? (vars : List Variable) (name : String) : Option Variable :=
  vars.find? fun v => v.name = name

/-- The variable that covers a scalar name: `x` for `x`, and for `x[2]` the array `x`. -/
def ownerOf? (vars : List Variable) (element : String) : Option Variable :=
  vars.find? fun v => v.covers element

namespace Draft

def declared? (d : Draft) (name : String) : Option Variable := declaredAs? d.vars name

def owner? (d : Draft) (element : String) : Option Variable := ownerOf? d.vars element

def elementNames (d : Draft) : List String := d.vars.flatMap (·.elementNames)

def withRole (d : Draft) (role : Role) : List Variable := d.vars.filter (·.role = role)

def states (d : Draft) : List Variable := d.withRole .state

/-- The position of a state in the state vector: as declared, otherwise its place among the
states. -/
def stateIndex (d : Draft) (name : String) : Except Fault Whole :=
  match d.states.zipIdx.find? fun (v, _) => v.name = name with
  | some (v, place) => .ok (v.stateIndex.getD (.int place))
  | none => .error (.notAState name d.name)

def withEquations (d : Draft) (s : Section) (es : List Equation) : Draft :=
  { d with equations := fun t => if t = s then es else d.equations t }

end Draft

end Causality
