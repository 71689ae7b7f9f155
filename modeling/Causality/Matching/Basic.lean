import Causality.Matching.Assignment
import Causality.Matching.Search
import Causality.Matching.Slots

/-!
# Matching

Which equation determines which unknown. An equation may take any slot that it references; it
tries derivatives before values, each in the order of the slots. An equation that stays unmatched
is surplus, a slot that stays unmatched is undetermined.
-/

namespace Causality

structure Matching where
  slots : List Occurrence
  assignment : Assignment
  unmatchedEquations : List String
  unmatchedSlots : List Occurrence
  aborted : Bool

namespace Matching

/-- Every equation and every unknown is matched. -/
def isTotal (x : Matching) : Bool :=
  x.unmatchedEquations.isEmpty && x.unmatchedSlots.isEmpty && !x.aborted

end Matching

/-- The slots that the entry references. -/
def Entry.candidates {m : Nat} (e : Entry) (slots : Vector Occurrence m) : List (Fin m) :=
  let referenced := (List.finRange m).filter fun j => e.references.contains slots[j]
  referenced.filter (fun j => slots[j].isDerivative) ++
    referenced.filter fun j => !slots[j].isDerivative

namespace Incidence

/-- The first entry with the same id. It stands for all of them, since the unknowns of an entry are
looked up by its id. -/
def node (g : Incidence) (i : Fin g.entries.length) : Fin g.entries.length :=
  ((List.finRange g.entries.length).find? fun k => g.entries[k].id = g.entries[i].id).getD i

/-- The graph of entries and candidates, which are found once for each entry. -/
def bipartite {m : Nat} (g : Incidence) (slots : Vector Occurrence m) :
    Bipartite g.entries.length m :=
  let table := Vector.ofFn fun i => g.entries[g.node i].candidates slots
  ⟨fun i => table[i], fun i => g.entries[i].position⟩

/-- The entries in the order in which they are tried. -/
def searchOrder {m : Nat} (g : Incidence) (b : Bipartite g.entries.length m) :
    List (Fin g.entries.length) :=
  b.order.map g.node

/-- The matching that a pairing of entries and slots stands for. -/
def matchingOf {m : Nat} (g : Incidence) (slots : Vector Occurrence m)
    (p : Pairing g.entries.length m) (aborted : Bool) : Matching where
  slots := slots.toList
  assignment := .ofList ((List.finRange g.entries.length).filterMap fun i =>
    (p.slotOf (g.node i)).map fun j => (g.entries[i].id, slots[j]))
  unmatchedEquations := ((List.finRange g.entries.length).filter fun i =>
    (p.slotOf (g.node i)).isNone).map fun i => g.entries[i].id
  unmatchedSlots := ((List.finRange m).filter fun j =>
    (p.equationOf j).isNone).map fun j => slots[j]
  aborted := aborted

end Incidence

/-- A maximum matching, or a partial one if more than `maxSteps` slots would be visited in the
search. -/
def Model.matching (m : Model) (g : Incidence) (maxSteps : Option Int) : Matching :=
  let slots := (m.slots g).toArray.toVector
  let b := g.bipartite slots
  let (p, aborted) := b.pairAlong (g.searchOrder b) maxSteps
  g.matchingOf slots p aborted

/-- What is said of a search that was stopped. -/
def stoppedSearch (maxSteps : Int) : String :=
  "Matching search stopped after " ++ toString maxSteps ++ " steps; the assignment is partial"

namespace Matching

/-- The warnings of a search with that bound, which the warning shows. -/
def searchWarnings (x : Matching) (maxSteps : Option Int) : Except Fault (List String) :=
  match maxSteps with
  | some steps =>
    if x.aborted then whenWritable (isWritable steps) [stoppedSearch steps] else .ok []
  | none => .ok []

end Matching

/-- The search for a matching, with its warnings. -/
def Model.findMatching (m : Model) (g : Incidence) (maxSteps : Option Int) :
    Except Fault Matching := do
  let x := m.matching g maxSteps
  let _ ← x.searchWarnings maxSteps
  return x

end Causality
