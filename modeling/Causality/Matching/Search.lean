import Causality.Matching.Pairing

/-!
# Search for augmenting paths

A depth-first search from an unpaired equation along candidates and pairs until it meets a free
slot. Each slot is visited once. The frames are the equations on the current branch, the innermost
first, each with the candidates it has not tried; `path` holds the slots that lead from one frame
to the next, again the innermost first. With a budget the search gives up as soon as it has visited
more slots than that.

A step visits a new slot, or else shortens what the frames have left to try, so the search ends.
-/

namespace Causality

structure Frame (n m : Nat) where
  equation : Fin n
  rest : List (Fin m)

structure Search (n m : Nat) where
  frames : List (Frame n m)
  path : List (Fin m)
  visited : List (Fin m)
  steps : Nat

/-- What a search comes to: whether it found a path, the number of slots that it visited, and the
pairing after the path, if any, is flipped. -/
structure Augmentation (n m : Nat) where
  found : Bool
  steps : Nat
  pairing : Pairing n m

def exceeds (budget : Option Int) (steps : Nat) : Bool :=
  match budget with
  | none => false
  | some b => b < steps

namespace Search

variable {n m : Nat}

def start (g : Bipartite n m) (root : Fin n) : Search n m where
  frames := [⟨root, g.candidates root⟩]
  path := []
  visited := []
  steps := 0

/-- The first frame tries its next candidate, or is left if there is none. -/
def step (g : Bipartite n m) (p : Pairing n m) (budget : Option Int) (s : Search n m) :
    Augmentation n m ⊕ Search n m :=
  match s.frames with
  | [] => .inl ⟨false, s.steps, p⟩
  | ⟨_, []⟩ :: outer => .inr { s with frames := outer, path := s.path.drop 1 }
  | ⟨i, j :: rest⟩ :: outer =>
    let frames := ⟨i, rest⟩ :: outer
    if j ∈ s.visited then .inr { s with frames := frames }
    else if exceeds budget (s.steps + 1) then .inl ⟨false, s.steps + 1, p⟩
    else
      match p.equationOf j with
      | none =>
        .inl ⟨true, s.steps + 1,
          p.assignAll ((frames.map (·.equation)).zip (j :: s.path))⟩
      | some k =>
        .inr ⟨⟨k, g.candidates k⟩ :: frames, j :: s.path, j :: s.visited, s.steps + 1⟩

def unvisited (s : Search n m) : Nat := (List.finRange m).countP fun j => j ∉ s.visited

def pending (s : Search n m) : Nat := s.frames.foldr (fun f n => f.rest.length + 1 + n) 0

theorem unvisited_cons_lt {s t : Search n m} {j : Fin m} (hj : j ∉ s.visited)
    (ht : t.visited = j :: s.visited) : t.unvisited < s.unvisited := by
  have hle : ∀ l : List (Fin m),
      l.countP (fun k => decide (k ∉ t.visited)) ≤ l.countP (fun k => decide (k ∉ s.visited)) := by
    intro l
    apply List.countP_mono_left
    intro k _ hk
    simp only [decide_eq_true_eq, ht, List.mem_cons, not_or] at hk ⊢
    exact hk.2
  obtain ⟨before, after, split⟩ := List.append_of_mem (List.mem_finRange j)
  simp only [unvisited, split, List.countP_append, List.countP_cons]
  have hb := hle before
  have ha := hle after
  have hs : decide (j ∉ s.visited) = true := by simpa using hj
  have hn : decide (j ∉ t.visited) = false := by simp [ht]
  rw [hs, hn]
  simp only [if_true, Bool.false_eq_true, if_false]
  omega

theorem step_decreases {g : Bipartite n m} {p : Pairing n m} {budget : Option Int}
    {s t : Search n m} (h : s.step g p budget = .inr t) :
    Prod.Lex (· < ·) (· < ·) (t.unvisited, t.pending) (s.unvisited, s.pending) := by
  obtain ⟨frames, path, visited, steps⟩ := s
  match frames with
  | [] => simp [step] at h
  | ⟨i, []⟩ :: outer =>
    simp only [step, Sum.inr.injEq] at h
    subst h
    apply Prod.Lex.right
    simp [pending]
  | ⟨i, j :: rest⟩ :: outer =>
    simp only [step] at h
    split at h
    · simp only [Sum.inr.injEq] at h
      subst h
      apply Prod.Lex.right
      simp [pending]
    · rename_i hj
      split at h
      · simp at h
      · split at h
        · simp at h
        · simp only [Sum.inr.injEq] at h
          subst h
          exact Prod.Lex.left _ _ (unvisited_cons_lt hj rfl)

def run (g : Bipartite n m) (p : Pairing n m) (budget : Option Int) (s : Search n m) :
    Augmentation n m :=
  match _ : s.step g p budget with
  | .inl a => a
  | .inr t => run g p budget t
termination_by (s.unvisited, s.pending)
decreasing_by exact step_decreases ‹_›

end Search

namespace Bipartite

variable {n m : Nat}

/-- The search from one unpaired equation. -/
def augment (g : Bipartite n m) (p : Pairing n m) (budget : Option Int) (root : Fin n) :
    Augmentation n m :=
  (Search.start g root).run g p budget

/-- Searches from each equation that is still unpaired. The searches share the budget; the first
one that overdraws it is the last. Tells whether that happened. -/
def improve (g : Bipartite n m) : List (Fin n) → Option Int → Pairing n m → Pairing n m × Bool
  | [], _, p => (p, false)
  | i :: rest, budget, p =>
    if (p.slotOf i).isSome then improve g rest budget p
    else
      let a := g.augment p budget i
      match budget with
      | none => improve g rest none a.pairing
      | some b =>
        if b - a.steps < 0 then (a.pairing, true)
        else improve g rest (some (b - a.steps)) a.pairing

/-- Tries the equations in turn, first with the greedy choice and then with searches. -/
def pairAlong (g : Bipartite n m) (equations : List (Fin n)) (budget : Option Int) :
    Pairing n m × Bool :=
  g.improve equations budget (g.greedy equations)

/-- A pairing with as many pairs as possible, unless the budget runs out. -/
def pair (g : Bipartite n m) (budget : Option Int) : Pairing n m × Bool :=
  g.pairAlong g.order budget

end Bipartite

end Causality
