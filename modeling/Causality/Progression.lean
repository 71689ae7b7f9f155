/-!
# Progressions

The numbers that a loop runs through. A traversal forms them one at a time, so that it ends at the
first fault however many numbers are left, and it is the traversal of the list of all of them.
-/

namespace Causality

/-- The numbers `start`, `start + step`, …, `count` of them. -/
structure Progression where
  start : Int
  step : Int
  count : Nat

namespace Progression

/-- The numbers from `start` on that do not pass `stop`. -/
def upTo (start stop step : Int) : Progression where
  start := start
  step := step
  count :=
    (if 0 < step then (stop - start) / step + 1 else (start - stop) / -step + 1).toNat

def values (p : Progression) : List Int :=
  (List.range p.count).map fun (k : Nat) => p.start + k * p.step

theorem values_zero (start step : Int) : values ⟨start, step, 0⟩ = [] := rfl

theorem values_succ (start step : Int) (count : Nat) :
    values ⟨start, step, count + 1⟩ = start :: values ⟨start + step, step, count⟩ := by
  simp only [values, List.range_succ_eq_map, List.map_cons, List.map_map, List.cons.injEq]
  refine ⟨by simp, List.map_congr_left fun k _ => ?_⟩
  simp only [Function.comp_apply, Nat.succ_eq_add_one, Int.natCast_add, Int.natCast_one,
    Int.add_mul, Int.one_mul]
  omega

variable {ε α : Type} (f : Int → Except ε α)

/-- The results so far are `done`, the last one first. -/
def traverse (step : Int) : Nat → Int → List α → Except ε (List α)
  | 0, _, done => .ok done.reverse
  | count + 1, i, done =>
    match f i with
    | .error fault => .error fault
    | .ok a => traverse step count (i + step) (a :: done)

/-- What `f` makes of each number, in order, or its first fault. -/
def mapM (p : Progression) : Except ε (List α) := traverse f p.step p.count p.start []

theorem traverse_eq (step : Int) (count : Nat) (i : Int) (done : List α) :
    traverse f step count i done =
      (List.mapM f (values ⟨i, step, count⟩)).map fun rest => done.reverse ++ rest := by
  induction count generalizing i done with
  | zero => simp [traverse, values_zero, Except.map, pure, Except.pure]
  | succ count ih =>
    rw [traverse, values_succ, List.mapM_cons]
    cases h : f i with
    | error fault => rfl
    | ok a =>
      refine (ih (i + step) (a :: done)).trans ?_
      cases List.mapM f (values ⟨i + step, step, count⟩) <;>
        simp [Except.map, bind, Except.bind, pure, Except.pure]

theorem mapM_eq (p : Progression) : p.mapM f = p.values.mapM f := by
  rw [mapM, traverse_eq]
  cases List.mapM f (values ⟨p.start, p.step, p.count⟩) <;> simp [Except.map]

end Progression

end Causality
