import Causality.Block.Basic
import Causality.Issue
import Causality.Matching.Basic

/-!
# Verdict

The checks of a decomposition: the matching is total, no unknown is listed or assigned twice, and
the blocks hold each assigned equation once, with the slots of their equations. What fails becomes
an issue, and loops are reported. The checks make no assumption on where the matching and the
blocks come from, except that surplus equations have to be known and can be written.
-/

namespace Causality

/-- `n` equations for `m` unknowns, as against the matching. -/
def countIssues (n m : Nat) (x : Matching) : List Issue :=
  let counts := toString n ++ " equations for " ++ toString m ++ " unknowns"
  if m < n then [.error .overDetermined ("Over-determined system: " ++ counts) none]
  else if n < m then [.error .underDetermined ("Under-determined system: " ++ counts) none]
  else if x.unmatchedEquations.isEmpty && x.unmatchedSlots.isEmpty then []
  else
    [.error .structurallySingular
      ("Structurally singular system: " ++ toString n ++
        " equations and unknowns, but only " ++ toString x.assignment.size ++
        " could be matched") none]

/-- The report of a surplus equation shows the equation. -/
def surplusIssue (category : Category) (e : Entry) : Except Fault Issue :=
  whenWritable e.isWritable
    (.error category ("Surplus equation " ++ e.id ++ ": " ++ e.text) (some e.id))

def missingIssue (category : Category) (slot : Occurrence) : Issue :=
  .error category ("No equation determines " ++ slot.text) (some slot.text)

def abortIssues (x : Matching) : List Issue :=
  if x.aborted then
    [.error .incompleteSearch
      "Matching search was stopped before completion; the result may be incomplete" none]
  else []

def listedTwice (slots : List Occurrence) : List Issue :=
  slots.eraseDups.filterMap fun slot =>
    let n := slots.count slot
    if 1 < n then
      some (.error .duplicateAssignment
        ("Unknown " ++ slot.text ++ " is listed " ++ toString n ++ " times") (some slot.text))
    else none

def assignedTwice (a : Assignment) : List Issue :=
  a.slots.eraseDups.filterMap fun slot =>
    let ids := (a.pairs.filter fun p => p.2 = slot).map (·.1)
    if 1 < ids.length then
      some (.error .duplicateAssignment
        ("Unknown " ++ slot.text ++ " is assigned to " ++ toString ids.length ++
          " equations: " ++ ", ".intercalate ids) (some slot.text))
    else none

def blockPlace (k : Nat) : String := "block " ++ toString k

namespace Block

/-- The slots assigned to the equations of the block, as far as they are assigned. -/
def expectedSlots (b : Block) (a : Assignment) : List (Option Occurrence) := b.ids.map a.slotOf?

/-- The slots of the `k`-th block are not those of its equations. -/
def slotIssues (b : Block) (a : Assignment) (k : Nat) : List Issue :=
  let expected := b.expectedSlots a
  if expected.isPerm (b.slots.map some) then []
  else
    [.error .blockMismatch
      ("Block " ++ toString k ++ " solves " ++ Text.quotedList b.unknownNames ++
        " but its equations are assigned " ++
        Text.quotedList ((expected.filterMap fun o => o.map (·.text)).mergeSort (· ≤ ·)))
      (some (blockPlace k))]

def loopIssues (b : Block) (k : Nat) : List Issue :=
  if b.isLoop then
    [⟨.info, .algebraicLoop,
      "Algebraic loop of size " ++ toString b.size ++ " in " ++ Text.quotedList b.unknownNames,
      some (blockPlace k)⟩]
  else []

end Block

/-- An assigned equation that is not in exactly one block, given the equations of all blocks. -/
def coverageIssues (seen : List String) (id : String) : List Issue :=
  if seen.count id = 1 then []
  else
    [.error .blockMismatch
      ("Equation " ++ id ++ " appears in " ++ toString (seen.count id) ++ " blocks") (some id)]

def strayIssue (id : String) : Issue :=
  .error .blockMismatch ("Unmatched equation " ++ id ++ " placed in a block") (some id)

def blockIssues (a : Assignment) (bs : List Block) : List Issue :=
  let seen := bs.flatMap (·.ids)
  (bs.zipIdx.flatMap fun (b, k) => b.slotIssues a k) ++
    a.ids.flatMap (coverageIssues seen) ++
    ((seen.eraseDups.filter fun id => !a.contains id).mergeSort (· ≤ ·)).map strayIssue

namespace Incidence

def matchingIssues (g : Incidence) (x : Matching) : Except Fault (List Issue) := do
  let n := g.entries.length
  let m := x.slots.length
  let surplus ← x.unmatchedEquations.mapM fun id => do
    surplusIssue (if m < n then .overDetermined else .structurallySingular) (← g.entry id)
  return countIssues n m x ++ surplus ++
    x.unmatchedSlots.map
      (missingIssue (if n < m then .underDetermined else .structurallySingular)) ++
    abortIssues x

/-- Everything that is found, in the order matching, duplicates, blocks, loops. -/
def issues (g : Incidence) (x : Matching) (bs : List Block) : Except Fault (List Issue) := do
  return (← g.matchingIssues x) ++ listedTwice x.slots ++ assignedTwice x.assignment ++
    blockIssues x.assignment bs ++ bs.zipIdx.flatMap fun (b, k) => b.loopIssues k

end Incidence

end Causality
