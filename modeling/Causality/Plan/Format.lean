import Causality.Plan.Basic

/-!
# The text of plans

A summary with the counts, the blocks and the issues. Blocks and issues are left out if there are
none.
-/

namespace Causality

namespace Plan

def counts (p : Plan) : List String :=
  let blocks := p.blocks.length
  let loops := p.loops.length
  ["BLT analysis of '" ++ p.modelName ++ "': " ++
      (if p.isWellPosed then "WELL-POSED" else "ILL-POSED"),
    "  Equations: " ++ toString p.incidence.entries.length,
    "  Unknowns: " ++ toString p.matching.slots.length,
    "  Blocks: " ++ toString blocks ++ " (" ++ toString (blocks - loops) ++ " scalar, " ++
      toString loops ++ " algebraic loops)"]

def blockLines (p : Plan) : Except Fault (List String) := do
  if p.blocks.isEmpty then return []
  else
    return "\nBlocks:" :: (← p.blocks.zipIdx.mapM fun (b, k) => do
      return "  " ++ toString k ++ ": " ++ (← b.text))

def issueLines (p : Plan) : List String :=
  if p.issues.isEmpty then []
  else "\nDiagnostics:" :: p.issues.map fun i => "  - " ++ i.text

def summary (p : Plan) : Except Fault String := do
  return "\n".intercalate (p.counts ++ (← p.blockLines) ++ p.issueLines)

end Plan

end Causality
