import Causality.Digraph.Exploration
import Causality.Fault

/-!
# Order of components

The components of a graph are listed so that every edge between two of them goes forward. For each
component it is counted how many others still have to come before it. Among those that are ready,
since this count is down to zero, the one with the earliest first member goes next. Components on a
cycle of the quotient, and those behind a cycle, are never ready and stay out.
-/

namespace Causality

/-- A component by its number, with its members in order and the position of the first. -/
structure Ranked where
  index : Nat
  key : Int
  members : List String

/-- An edge, between the numbers of two components. -/
structure Link where
  source : Nat
  target : Nat

namespace Ranked

def all (components : List (List String)) (keys : List Int) : List Ranked :=
  (components.zip keys).zipIdx.map fun ((members, key), index) => ⟨index, key, members⟩

/-- Components of one key go by their numbers. -/
def precedes (c d : Ranked) : Bool := c.key < d.key || (c.key = d.key && c.index < d.index)

/-- Puts a component into a queue that is sorted by `precedes`. -/
def enqueue (c : Ranked) : List Ranked → List Ranked
  | [] => [c]
  | d :: rest => if d.precedes c then d :: enqueue c rest else c :: d :: rest

theorem length_enqueue (c : Ranked) (queue : List Ranked) :
    (c.enqueue queue).length = queue.length + 1 := by
  induction queue with
  | nil => rfl
  | cons d rest ih =>
    unfold enqueue
    split
    · rw [List.length_cons, ih, List.length_cons]
    · rfl

end Ranked

/-- The components that each component points to, each once and itself left out, and the number of
components that point to it. -/
structure Quotient where
  targets : Nat → List Nat
  indegree : Nat → Nat

namespace Quotient

def empty : Quotient where
  targets _ := []
  indegree _ := 0

/-- Links inside of a component and links that are known already change nothing. -/
def add (q : Quotient) (link : Link) : Quotient :=
  if link.source = link.target ∨ link.target ∈ q.targets link.source then q
  else
    { targets := fun i => if i = link.source then link.target :: q.targets i else q.targets i
      indegree := fun i => if i = link.target then q.indegree i + 1 else q.indegree i }

def ofLinks (links : List Link) : Quotient := links.foldl add empty

end Quotient

/-- The components that are ready, in the order in which they are taken, and for each component
the number of those that it still waits for. -/
structure Agenda where
  ready : List Ranked
  waiting : Nat → Nat

namespace Agenda

def start (components : List Ranked) (q : Quotient) : Agenda where
  ready := (components.filter fun c => q.indegree c.index = 0).foldr Ranked.enqueue []
  waiting := q.indegree

/-- The target waits for one component less. It is ready after the last one. -/
def release (components : List Ranked) (a : Agenda) (target : Nat) : Agenda where
  ready :=
    if a.waiting target = 1 then
      match components.find? fun c => c.index = target with
      | some c => c.enqueue a.ready
      | none => a.ready
    else a.ready
  waiting i := if i = target then a.waiting i - 1 else a.waiting i

def pending (components : List Ranked) (a : Agenda) : Nat :=
  a.ready.length + components.countP fun c => 0 < a.waiting c.index

variable {components : List Ranked} {a : Agenda} {target : Nat}

theorem countP_release_le (components : List Ranked) (a : Agenda) (target : Nat)
    (cs : List Ranked) :
    (cs.countP fun c => 0 < (a.release components target).waiting c.index) ≤
      cs.countP fun c => 0 < a.waiting c.index := by
  apply List.countP_mono_left
  intro c _ hc
  rw [decide_eq_true_eq] at hc ⊢
  simp only [release] at hc
  split at hc <;> omega

theorem countP_release_lt {c : Ranked} (hc : c ∈ components) (hindex : c.index = target)
    (hlast : a.waiting target = 1) :
    (components.countP fun c => 0 < (a.release components target).waiting c.index) <
      components.countP fun c => 0 < a.waiting c.index := by
  have hle := countP_release_le components a target
  obtain ⟨before, after, hsplit⟩ := List.append_of_mem hc
  have hbefore := hle before
  have hafter := hle after
  have hold : decide (0 < a.waiting c.index) = true := by simp [hindex, hlast]
  have hnew : decide (0 < (a.release components target).waiting c.index) = false := by
    simp [release, hindex, hlast]
  rw [hsplit] at hbefore hafter hnew ⊢
  simp only [List.countP_append, List.countP_cons, hold, hnew, if_true, Bool.false_eq_true,
    if_false]
  omega

theorem pending_release_le (components : List Ranked) (a : Agenda) (target : Nat) :
    (a.release components target).pending components ≤ a.pending components := by
  have hle := countP_release_le components a target components
  by_cases hlast : a.waiting target = 1
  · cases hfind : components.find? fun c => c.index = target with
    | none =>
      have hready : (a.release components target).ready = a.ready := by simp [release, hfind]
      rw [pending, pending, hready]
      omega
    | some c =>
      have hready : (a.release components target).ready = c.enqueue a.ready := by
        simp [release, hlast, hfind]
      have hlt := countP_release_lt (List.mem_of_find?_eq_some hfind)
        (by simpa using List.find?_some hfind) hlast
      rw [pending, pending, hready, Ranked.length_enqueue]
      omega
  · have hready : (a.release components target).ready = a.ready := by simp [release, hlast]
    rw [pending, pending, hready]
    omega

theorem pending_foldl_release_le (components : List Ranked) (a : Agenda) (targets : List Nat) :
    (targets.foldl (release components) a).pending components ≤ a.pending components := by
  induction targets generalizing a with
  | nil => exact Nat.le_refl _
  | cons target targets ih =>
    exact Nat.le_trans (ih (a.release components target)) (pending_release_le components a target)

/-- Lists the first component that is ready and releases those that it points to. -/
def run (components : List Ranked) (targets : Nat → List Nat) (a : Agenda) :
    List (List String) :=
  match _ : a.ready with
  | [] => []
  | c :: rest =>
    c.members ::
      run components targets ((targets c.index).foldl (release components) { a with ready := rest })
termination_by a.pending components
decreasing_by
  refine Nat.lt_of_le_of_lt (pending_foldl_release_le _ _ _) ?_
  simp [pending, *]

end Agenda

def placeOf (position : String → Option Int) (v : String) : Except Fault Int :=
  match position v with
  | some place => .ok place
  | none => .error (.unknownKey v)

def sortMembers (position : String → Option Int) (component : List String) :
    Except Fault (List String) := do
  let placed ← component.mapM fun v => do return (← placeOf position v, v)
  return (placed.mergeSort fun a b => a.1 ≤ b.1).map (·.2)

def firstPlace (position : String → Option Int) : List String → Except Fault Int
  | [] => .error .emptyComponent
  | v :: _ => placeOf position v

/-- The number of the last component that holds a vertex. -/
def componentOf (components : List (List String)) (v : String) : Except Fault Nat :=
  match components.zipIdx.reverse.find? fun (c, _) => c.contains v with
  | some (_, index) => .ok index
  | none => .error (.unknownKey v)

namespace Digraph

def links (g : Digraph String) (components : List (List String)) : Except Fault (List Link) := do
  let parts ← g.rows.mapM fun (v, ws) => ws.mapM fun w => do
    let source ← componentOf components v
    let target ← componentOf components w
    return ⟨source, target⟩
  return parts.flatten

/-- The targets of a component are gone through in the order that `enumerate` gives them. -/
def orderComponentsBy (enumerate : Nat → List Nat → List Nat) (g : Digraph String)
    (position : String → Option Int) (components : List (List String)) :
    Except Fault (List (List String)) := do
  let sorted ← components.mapM (sortMembers position)
  let keys ← sorted.mapM (firstPlace position)
  let quotient := Quotient.ofLinks (← g.links sorted)
  let ranked := Ranked.all sorted keys
  let targets i := enumerate i (quotient.targets i)
  return Agenda.run ranked targets (.start ranked quotient)

def orderComponents (g : Digraph String) (position : String → Option Int)
    (components : List (List String)) : Except Fault (List (List String)) :=
  g.orderComponentsBy (fun _ targets => targets) position components

end Digraph

end Causality
