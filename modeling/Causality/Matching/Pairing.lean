/-!
# Pairings in a bipartite graph

Equations and slots are numbered. The graph lists for each equation the slots it may take, in the
order in which it tries them, and tells where the equation is declared. A pairing is looked up from
both sides; that the sides agree is a property of the pairings that are built, not of the type,
because an augmenting path is flipped pair by pair.
-/

namespace Causality

structure Bipartite (n m : Nat) where
  candidates : Fin n → List (Fin m)
  position : Fin n → Nat

structure Pairing (n m : Nat) where
  slotOf : Fin n → Option (Fin m)
  equationOf : Fin m → Option (Fin n)

namespace Pairing

variable {n m : Nat}

def empty : Pairing n m where
  slotOf _ := none
  equationOf _ := none

/-- Writes a pair over whatever its equation and its slot were paired with. -/
def assign (p : Pairing n m) (i : Fin n) (j : Fin m) : Pairing n m where
  slotOf k := if k = i then some j else p.slotOf k
  equationOf k := if k = j then some i else p.equationOf k

/-- Writes pairs, the last one of the list first. -/
def assignAll (p : Pairing n m) (pairs : List (Fin n × Fin m)) : Pairing n m :=
  pairs.foldr (fun (i, j) q => q.assign i j) p

end Pairing

namespace Bipartite

variable {n m : Nat} (g : Bipartite n m)

/-- The number of candidates and the position tell when an equation is tried. -/
def priority (i : Fin n) : Nat × Nat := ((g.candidates i).length, g.position i)

def notAfter (a b : Nat × Nat) : Bool := a.1 < b.1 || a.1 = b.1 && a.2 ≤ b.2

/-- Fewer candidates come first, then earlier positions. -/
def order : List (Fin n) :=
  (((List.finRange n).map fun i => (g.priority i, i)).mergeSort
    fun a b => notAfter a.1 b.1).map (·.2)

def takeFirstFree (p : Pairing n m) (i : Fin n) : Pairing n m :=
  match (g.candidates i).find? fun j => (p.equationOf j).isNone with
  | some j => p.assign i j
  | none => p

/-- Each equation in turn takes its first candidate that is still free. -/
def greedy (equations : List (Fin n)) : Pairing n m := equations.foldl g.takeFirstFree .empty

end Bipartite

end Causality
