/-!
# Exploration of a graph

Depth-first search with a stack of the vertices whose component is still open, in recursive form. A
vertex is low if it reaches an open vertex below it; the lowest vertex of a component closes it and
takes what lies above it off the stack. Components come out in the order in which they are closed,
so every component comes after those that it reaches.
-/

namespace Causality

/-- A finite directed graph by the successors of its vertices. A vertex that is not listed has
none. -/
structure Digraph (α : Type) where
  rows : List (α × List α)

/-- The vertices that are listed or pointed to, some more than once. -/
def Digraph.vertices {α : Type} (g : Digraph α) : List α := g.rows.flatMap fun (v, ws) => v :: ws

/-- The open vertices, the latest first, and the closed components, the latest last. -/
structure Exploration (α : Type) where
  stack : List α
  components : List (List α)

variable {α : Type} [DecidableEq α]

namespace Exploration

def isClosed (s : Exploration α) (v : α) : Bool := s.components.any fun c => c.contains v

def isSeen (s : Exploration α) (v : α) : Bool := s.stack.contains v || s.isClosed v

/-- The height of an open vertex on the stack, counted from 1. -/
def height (s : Exploration α) (v : α) : Nat := (s.stack.dropWhile fun w => w ≠ v).length

def push (s : Exploration α) (v : α) : Exploration α := { s with stack := v :: s.stack }

/-- Takes the vertices down to `v` off the stack, as one component. -/
def close (s : Exploration α) (v : α) : Exploration α where
  stack := (s.stack.dropWhile fun w => w ≠ v).drop 1
  components := s.components ++ [(s.stack.takeWhile fun w => w ≠ v) ++ [v]]

/-- Follows an edge to `w`, given the lowest height reached so far. -/
def follow (visit : α → Exploration α → Nat × Exploration α) (reached : Nat × Exploration α)
    (w : α) : Nat × Exploration α :=
  let (low, s) := reached
  if s.stack.contains w then (min low (s.height w), s)
  else if s.isClosed w then (low, s)
  else
    let (l, t) := visit w s
    (min low l, t)

end Exploration

namespace Digraph

def successors (g : Digraph α) (v : α) : List α := (g.rows.lookup v).getD []

theorem mem_vertices {g : Digraph α} {v w : α} (h : w ∈ g.successors v) : w ∈ g.vertices := by
  rw [successors] at h
  cases hrow : g.rows.lookup v with
  | none => simp [hrow] at h
  | some ws =>
    rw [hrow, Option.getD_some] at h
    rw [List.lookup_eq_some_iff] at hrow
    obtain ⟨_, _, hrows, _⟩ := hrow
    have hmem : (v, ws) ∈ g.rows := by simp [hrows]
    exact List.mem_flatMap.mpr ⟨_, hmem, List.mem_cons_of_mem _ h⟩

/-- Visits a vertex that was not seen and all that it reaches; returns the lowest height reached.
The first argument bounds the depth, that is the number of vertices not seen. -/
def visit (g : Digraph α) : Nat → α → Exploration α → Nat × Exploration α
  | 0, _, s => (s.stack.length, s)
  | depth + 1, v, s =>
    let height := s.stack.length + 1
    let (low, t) :=
      (g.successors v).foldl (Exploration.follow (visit g depth)) (height, s.push v)
    if low = height then (low, t.close v) else (low, t)

def visitRoot (g : Digraph α) (depth : Nat) (s : Exploration α) (root : α) : Exploration α :=
  if s.isSeen root then s else (g.visit depth root s).2

end Digraph

end Causality
