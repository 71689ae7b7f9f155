import Causality.Plan.Basic

/-!
# Journal of an analysis

The lines that an analysis notes down. They can all be told from the plan and the settings it was
made with, since an analysis that fails has no journal.
-/

namespace Causality

/-- The part of the analysis that a line of the journal is about. -/
inductive Stage where
  | analysis
  | incidence
  | matching
  | blocks
deriving DecidableEq

structure JournalLine where
  stage : Stage
  text : String

namespace Plan

def journal (p : Plan) (settings : Settings) : List JournalLine :=
  let name := "'" ++ p.modelName ++ "'"
  let equations := toString p.incidence.entries.length
  let matched := toString p.matching.assignment.size
  [⟨.analysis, "Analyzing " ++ name ++ " " ++ settings.text⟩,
    ⟨.incidence, "Incidence of " ++ name ++ ": " ++ equations ++ " equations from " ++
      toString (Model.solvedSections settings.includeInitial).length ++ " sections"⟩,
    ⟨.matching, "Matched " ++ matched ++ " of " ++ equations ++ " equations to " ++
      toString p.matching.slots.length ++ " unknowns" ++
      if p.matching.aborted then " (aborted)" else ""⟩,
    ⟨.blocks, "BLT: " ++ toString p.blocks.length ++ " blocks, " ++ toString p.loops.length ++
      " algebraic loops from " ++ matched ++ " matched equations"⟩,
    ⟨.analysis, name ++ ": " ++ (if p.isWellPosed then "well" else "ill") ++ " posed, " ++
      toString p.issues.length ++ " diagnostics"⟩]

end Plan

end Causality
