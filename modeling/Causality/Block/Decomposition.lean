import Causality.Affine
import Causality.Block.Basic
import Causality.Dependency
import Causality.Digraph.Components
import Causality.Digraph.Order

/-!
# Decomposition into blocks

The assigned equations fall into the strongly connected components of their dependencies. The
components in order are the blocks of the evaluation: an equation on its own that does not depend
on itself is scalar, everything else is an algebraic loop. Equations without a slot are left out.
-/

namespace Causality

/-- The unknown of a simple equation as an expression, if the equation is affine in it. -/
def Entry.solution? (e : Entry) (slot : Occurrence) : Except Fault (Option Expr) :=
  match e.source with
  | .simple lhs rhs => solveFor slot lhs rhs
  | _ => .ok none

namespace Block

def ofMember (e : Entry) (slot : Occurrence) : Except Fault Block := do
  if e.isSelfDependent slot then return ⟨.loop, [e], [slot], none⟩
  else return ⟨.scalar, [e], [slot], ← e.solution? slot⟩

def ofMembers : List (Entry × Occurrence) → Except Fault Block
  | [(e, slot)] => ofMember e slot
  | members => .ok ⟨.loop, members.map (·.1), members.map (·.2), none⟩

end Block

namespace Incidence

def member (g : Incidence) (a : Assignment) (id : String) : Except Fault (Entry × Occurrence) :=
  match g.latest? id, a.slotOf? id with
  | some e, some slot => .ok (e, slot)
  | _, _ => .error (.unknownKey id)

def components (g : Incidence) (a : Assignment) : Except Fault (List (List String)) :=
  let d := g.dependencies a
  d.orderComponents g.position? (d.components (g.ids.filter a.contains))

def blocks (g : Incidence) (a : Assignment) : Except Fault (List Block) := do
  (← g.components a).mapM fun ids => do Block.ofMembers (← ids.mapM (g.member a))

end Incidence

end Causality
