import Causality.Plan.Basic

/-!
# Sessions

A model together with its latest plan. A change of the model drops the plan, and a question about
the plan makes one with the standard settings if there is none.
-/

namespace Causality

structure Session where
  model : Model
  plan : Option Plan

namespace Session

def start (m : Model) : Session := ⟨m, none⟩

/-- Changes the draft of the model, which is checked again as a whole. -/
def revise (s : Session) (change : Draft → Draft) : Except Fault Session := do
  return start (← (change s.model.toDraft).check)

def analyze (s : Session) (settings : Settings) : Except Fault (Plan × Session) := do
  let p ← s.model.analyze settings
  return (p, { s with plan := some p })

def current (s : Session) : Except Fault (Plan × Session) :=
  match s.plan with
  | some p => .ok (p, s)
  | none => s.analyze .standard

/-- Declares the continuous equations in the order in which the plan evaluates them. -/
def reorder (s : Session) : Except Fault Session := do
  let (p, _) ← s.current
  s.revise fun d => d.withEquations .continuous p.continuousSources

end Session

end Causality
