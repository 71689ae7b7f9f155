import Causality.Digraph.Exploration
import Causality.Incidence
import Causality.Matching.Assignment

/-!
# Dependencies

The graph of the assigned equations. An edge goes from an equation to each one that needs the slot
it determines. That an equation needs its own slot is no edge but told by `isSelfDependent`.
-/

namespace Causality

/-- The entry references the slot more often than the equations merged into it define it, as in
`x = x + 1` or `x * x = 4`. -/
def Entry.isSelfDependent (e : Entry) (slot : Occurrence) : Bool := e.multiplicity < e.count slot

namespace Incidence

def position? (g : Incidence) (id : String) : Option Int :=
  (g.latest? id).map fun e => e.position

/-- The other assigned entries that reference the slot of `id`, in the order of declaration. -/
def dependents (g : Incidence) (a : Assignment) (id : String) (slot : Occurrence) :
    List String :=
  ((g.entries.filter fun e =>
    e.references.contains slot && e.id ≠ id && a.contains e.id).map (·.id)).mergeSort
      fun u v => (g.position? u).getD 0 ≤ (g.position? v).getD 0

/-- Of several equations with one slot, the last determines it. -/
def dependencies (g : Incidence) (a : Assignment) : Digraph String where
  rows := a.pairs.map fun (id, slot) =>
    (id, if a.owner? slot = some id then g.dependents a id slot else [])

end Incidence

end Causality
