import Causality.Digraph.Exploration

/-!
# Strongly connected components

The search for components step by step. It keeps the vertices on the way from the root, the
innermost first, each with the number of its edges that were followed. Vertices are numbered as they
are entered, and the low link of a vertex is the least number of an open vertex that it is known to
reach. A vertex all of whose edges were followed is left: it passes its low link on, and if this is
its own number it closes a component.

A step enters a vertex that was not seen, or else shortens what is left to follow, so the search
ends.
-/

namespace Causality

/-- The latest entry for a vertex in `index` and in `low` is the one that counts. -/
structure Traversal (α : Type) extends Exploration α where
  branch : List (α × Nat)
  index : List (α × Nat)
  low : List (α × Nat)

variable {α : Type} [DecidableEq α]

namespace Traversal

def empty : Traversal α where
  stack := []
  components := []
  branch := []
  index := []
  low := []

def isIndexed (t : Traversal α) (v : α) : Bool := (t.index.lookup v).isSome

def indexOf (t : Traversal α) (v : α) : Nat := (t.index.lookup v).getD 0

def lowOf (t : Traversal α) (v : α) : Nat := (t.low.lookup v).getD 0

def enter (t : Traversal α) (v : α) : Traversal α where
  toExploration := t.push v
  branch := (v, 0) :: t.branch
  index := (v, t.index.length) :: t.index
  low := (v, t.index.length) :: t.low

def lower (t : Traversal α) (v : α) (k : Nat) : Traversal α :=
  { t with low := (v, min (t.lowOf v) k) :: t.low }

/-- Lowers the vertex that `v` was entered from to the low link of `v`. -/
def passOn (t : Traversal α) (v : α) : Traversal α :=
  match t.branch with
  | [] => t
  | (u, _) :: _ => t.lower u (t.lowOf v)

def closeIfLowest (t : Traversal α) (v : α) : Traversal α :=
  if t.lowOf v = t.indexOf v then { t with toExploration := t.close v } else t

def leave (t : Traversal α) (v : α) : Traversal α := (t.passOn v).closeIfLowest v

def follow (t : Traversal α) (v w : α) : Traversal α :=
  if !t.isIndexed w then t.enter w
  else if t.stack.contains w then t.lower v (t.indexOf w)
  else t

/-- The innermost vertex follows its next edge, or is left if there is none. -/
def step (g : Digraph α) (t : Traversal α) : Option (Traversal α) :=
  match t.branch with
  | [] => none
  | (v, i) :: outer =>
    match (g.successors v)[i]? with
    | none => some ({ t with branch := outer }.leave v)
    | some w => some ({ t with branch := (v, i + 1) :: outer }.follow v w)

def unseen (g : Digraph α) (t : Traversal α) : Nat := g.vertices.countP fun v => !t.isIndexed v

/-- What is left to do on a branch: to follow an edge or to leave a vertex. -/
def pending (g : Digraph α) (branch : List (α × Nat)) : Nat :=
  branch.foldr (fun frame n => (g.successors frame.1).length - frame.2 + 1 + n) 0

variable {g : Digraph α} {s t : Traversal α} {u v w : α}

@[simp] theorem isIndexed_enter : (t.enter v).isIndexed u = (u = v || t.isIndexed u) := by
  simp only [isIndexed, enter]
  by_cases huv : u = v
  · simp [huv]
  · rw [List.lookup_cons, beq_eq_false_iff_ne.mpr huv]
    simp [huv]

theorem unseen_enter_lt (hv : v ∈ g.vertices) (hseen : t.isIndexed v = false) :
    (t.enter v).unseen g < t.unseen g := by
  have hle : ∀ vs : List α, (vs.countP fun u => !(t.enter v).isIndexed u) ≤
      vs.countP fun u => !t.isIndexed u := by
    intro vs
    apply List.countP_mono_left
    intro u _ hu
    simp only [isIndexed_enter, Bool.not_or, Bool.and_eq_true] at hu
    exact hu.2
  obtain ⟨before, after, hsplit⟩ := List.append_of_mem hv
  have hbefore := hle before
  have hafter := hle after
  simp only [unseen, hsplit, List.countP_append, List.countP_cons, hseen, isIndexed_enter]
  simp only [isIndexed_enter] at hbefore hafter
  simp only [decide_true, Bool.true_or, Bool.not_true, Bool.false_eq_true, if_false, Bool.not_false,
    if_true]
  omega

@[simp] theorem branch_passOn : (t.passOn v).branch = t.branch := by
  unfold passOn
  split <;> rfl

@[simp] theorem index_passOn : (t.passOn v).index = t.index := by
  unfold passOn
  split <;> rfl

@[simp] theorem branch_closeIfLowest : (t.closeIfLowest v).branch = t.branch := by
  unfold closeIfLowest
  split <;> rfl

@[simp] theorem index_closeIfLowest : (t.closeIfLowest v).index = t.index := by
  unfold closeIfLowest
  split <;> rfl

theorem unseen_congr (h : t.index = s.index) : t.unseen g = s.unseen g := by
  simp only [unseen, isIndexed, h]

/-- A vertex that was not seen is entered, or the branch stays as it is. -/
theorem follow_decreases (hw : w ∈ g.vertices) :
    (t.follow v w).unseen g < t.unseen g ∨
      (t.follow v w).unseen g = t.unseen g ∧ (t.follow v w).branch = t.branch := by
  unfold follow
  split
  · rename_i hseen
    exact .inl (unseen_enter_lt hw (by simpa using hseen))
  · split
    · exact .inr ⟨unseen_congr rfl, rfl⟩
    · exact .inr ⟨rfl, rfl⟩

theorem step_decreases (h : s.step g = some t) :
    Prod.Lex (· < ·) (· < ·) (t.unseen g, pending g t.branch) (s.unseen g, pending g s.branch) := by
  rw [Prod.lex_def]
  unfold step at h
  split at h
  · cases h
  · rename_i v i outer hbranch
    rw [hbranch]
    split at h
    · obtain rfl := Option.some.inj h
      refine .inr ⟨unseen_congr (by simp [leave]), ?_⟩
      simp [pending, leave]
    · rename_i w hw
      obtain rfl := Option.some.inj h
      obtain ⟨hi, rfl⟩ := List.getElem?_eq_some_iff.mp hw
      have hless : pending g ((v, i + 1) :: outer) < pending g ((v, i) :: outer) := by
        simp only [pending, List.foldr_cons]
        omega
      obtain hseen | ⟨hsame, hbranch⟩ :=
        follow_decreases (t := { s with branch := (v, i + 1) :: outer }) (v := v)
          (Digraph.mem_vertices (List.getElem_mem hi))
      · exact .inl hseen
      · exact .inr ⟨hsame, hbranch ▸ hless⟩

/-- Follows edges until the root is left. -/
def run (g : Digraph α) (s : Traversal α) : Traversal α :=
  match _ : s.step g with
  | none => s
  | some t => run g t
termination_by (s.unseen g, pending g s.branch)
decreasing_by exact step_decreases ‹_›

def explore (g : Digraph α) (t : Traversal α) (root : α) : Traversal α :=
  if t.isIndexed root then t else (t.enter root).run g

end Traversal

/-- The components of what the roots reach. -/
def Digraph.components (g : Digraph α) (roots : List α) : List (List α) :=
  (roots.foldl (Traversal.explore g) .empty).components

end Causality
