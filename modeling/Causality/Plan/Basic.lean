import Causality.Block.Decomposition
import Causality.Verdict

/-!
# Plans

A plan is what the structural analysis of a model comes to: the blocks in the order of evaluation
and the issues found. If there are errors among the issues, the blocks cover only the equations
that are matched.
-/

namespace Causality

structure Settings where
  /-- The initial equations, and the state values that they constrain, are analysed too. -/
  includeInitial : Bool
  /-- A bound on the slots visited in the search for a matching. -/
  maxSteps : Option Int

namespace Settings

def standard : Settings := ⟨true, none⟩

def text (s : Settings) : String :=
  "(include_initial=" ++ boolText s.includeInitial ++ ", max_steps=" ++
    (match s.maxSteps with
      | none => "None"
      | some steps => toString steps) ++ ")"

def isWritable (s : Settings) : Bool := s.maxSteps.all Causality.isWritable

/-- An analysis begins with a note of its settings, whether or not anyone reads it. -/
def note (s : Settings) : Except Fault Unit := whenWritable s.isWritable ()

end Settings

structure Plan where
  modelName : String
  blocks : List Block
  issues : List Issue
  incidence : Incidence
  matching : Matching

def Model.analyze (m : Model) (settings : Settings) : Except Fault Plan := do
  settings.note
  let incidence ← m.incidence settings.includeInitial
  let matching ← m.findMatching incidence settings.maxSteps
  let blocks ← incidence.blocks matching.assignment
  let issues ← incidence.issues matching blocks
  return { modelName := m.name, blocks, issues, incidence, matching }

namespace Plan

def withSeverity (p : Plan) (severity : Severity) : List Issue :=
  p.issues.filter fun i => i.severity = severity

def errors (p : Plan) : List Issue := p.withSeverity .error

def warnings (p : Plan) : List Issue := p.withSeverity .warning

def isWellPosed (p : Plan) : Bool := p.errors.isEmpty

def loops (p : Plan) : List Block := p.blocks.filter (·.isLoop)

def block? (p : Plan) (id : String) : Option Block := p.blocks.find? fun b => b.ids.contains id

/-- The last block that solves for the slot. -/
def solver? (p : Plan) (slot : Occurrence) : Option Block :=
  p.blocks.reverse.find? fun b => b.slots.contains slot

/-- The slot has an explicit expression without derivatives. -/
def isExplicit (p : Plan) (slot : Occurrence) : Except Fault Bool :=
  match (p.solver? slot).filter (·.isSolvable) with
  | none => .ok false
  | some b =>
    match b.solution with
    | none => .ok false
    | some solution => (solution.anyNode Expr.isDer).map not

/-- Every derivative is explicit. The check stops at the first one that is not. -/
def isExplicitODE (p : Plan) : Except Fault Bool :=
  (p.matching.slots.filter (·.isDerivative)).allM p.isExplicit

/-- The incidence matrix with equations and unknowns in block order, those without a partner at
the end. If the plan is well posed, the matrix is block lower triangular. -/
def matrix (p : Plan) : Except Fault (List (List Nat)) :=
  p.incidence.matrix (p.blocks.flatMap (·.slots) ++ p.matching.unmatchedSlots)
    (p.blocks.flatMap (·.ids) ++ p.matching.unmatchedEquations)

/-- The continuous equations in block order. One with several entries occurs once for each. -/
def continuousSources (p : Plan) : List Equation :=
  ((p.blocks.flatMap (·.entries)).filter fun e => e.origin = .continuous).map (·.source)

end Plan

end Causality
