import Causality.Proofs.Evaluation.Forms

/-!
# Values in an environment

Away from any model, a name has a value, a derivative and a left limit, which are independent of
each other. Every node other than these and field arithmetic is an arbitrary function of the values
of its operands. An expression has a value unless one of its divisors, at any depth, is zero.
-/

namespace Causality

variable {K : Type} {u : Occurrence} {e : Expr}

structure Environment (K : Type) where
  value : String → K
  derivative : String → K
  previous : String → K

def Environment.unknown (ρ : Environment K) (u : Occurrence) : K :=
  if u.isDerivative then ρ.derivative u.name else ρ.value u.name

def Expr.scalarName? : Expr → Option String
  | ref name [] => some name
  | _ => none

theorem Expr.eq_of_scalarName? {name : String} (h : e.scalarName? = some name) :
    e = ref name [] := by
  unfold scalarName? at h
  split at h
  · rw [Option.some.inj h]
  · cases h

/-! ### Evaluation -/

namespace Interpretation

variable [Field K] [DecidableEq K] {I : Interpretation K} {ρ : Environment K}

mutual

/-- The value of an expression, unless it divides by zero. -/
def evaluate (I : Interpretation K) (ρ : Environment K) : Expr → Option K
  | .lit number => some (I.number number)
  | .ref name [] => some (ρ.value name)
  | .ref name (s :: rest) => (evaluateAll I ρ (s :: rest)).map (I.apply (.ref name (s :: rest)))
  | .unary .neg operand => (evaluate I ρ operand).map fun x => -x
  | .unary .not operand => (evaluate I ρ operand).map fun x => I.apply (.unary .not operand) [x]
  | .binary op left right =>
    (evaluate I ρ left).bind fun x => (evaluate I ρ right).bind fun y =>
      if op.isField then op.onField x y else some (I.apply (.binary op left right) [x, y])
  | .call function arguments => (evaluateAll I ρ arguments).map (I.apply (.call function arguments))
  | .cond condition whenTrue whenFalse =>
    (evaluate I ρ condition).bind fun x => (evaluate I ρ whenTrue).bind fun y =>
      (evaluate I ρ whenFalse).map fun z => I.apply (.cond condition whenTrue whenFalse) [x, y, z]
  | .der operand =>
    match operand.scalarName? with
    | some name => some (ρ.derivative name)
    | none => (evaluate I ρ operand).map fun x => I.apply (.der operand) [x]
  | .pre operand =>
    match operand.scalarName? with
    | some name => some (ρ.previous name)
    | none => (evaluate I ρ operand).map fun x => I.apply (.pre operand) [x]
  | .foreign kind => some (I.apply (.foreign kind) [])
termination_by structural e => e

def evaluateAll (I : Interpretation K) (ρ : Environment K) : List Expr → Option (List K)
  | [] => some []
  | e :: rest => (evaluate I ρ e).bind fun x => (evaluateAll I ρ rest).map fun xs => x :: xs
termination_by structural es => es

end

theorem isValuation_evaluate (I : Interpretation K) (ρ : Environment K) :
    I.IsValuation (I.evaluate ρ) where
  lit _ := rfl
  neg _ := rfl
  binary op a b hop := by
    simp only [evaluate, if_pos hop]

end Interpretation

/-! ### Divisors -/

namespace Expr

def ownDivisors : Expr → List Expr
  | binary .div _ right => [right]
  | _ => []

/-- What the expression divides by, at any depth. -/
def allDivisors (e : Expr) : List Expr := e.nodes.flatMap ownDivisors

theorem allDivisors_eq (e : Expr) :
    e.allDivisors = e.ownDivisors ++ e.parts.flatMap allDivisors := by
  rw [allDivisors, nodes_eq, List.flatMap_cons, List.flatMap_assoc]
  rfl

end Expr

namespace Interpretation

variable [Field K] [DecidableEq K] {I : Interpretation K} {ρ : Environment K}

theorem isSome_evaluateAll_iff (es : List Expr) :
    (I.evaluateAll ρ es).isSome = true ↔ ∀ e ∈ es, (I.evaluate ρ e).isSome = true := by
  induction es with
  | nil => simp [evaluateAll]
  | cons e rest ih =>
    rw [List.forall_mem_cons, ← ih, evaluateAll]
    cases I.evaluate ρ e <;> simp

theorem isSome_evaluate_iff_parts (e : Expr) : (I.evaluate ρ e).isSome = true ↔
    (∀ d ∈ e.ownDivisors, I.evaluate ρ d ≠ some 0) ∧
      ∀ part ∈ e.parts, (I.evaluate ρ part).isSome = true := by
  cases e with
  | lit number => simp [evaluate, Expr.ownDivisors, Expr.parts]
  | ref name subscripts =>
    cases subscripts with
    | nil => simp [evaluate, Expr.ownDivisors, Expr.parts]
    | cons s rest =>
      rw [evaluate, Option.isSome_map, isSome_evaluateAll_iff]
      simp [Expr.ownDivisors, Expr.parts]
  | unary op operand => cases op <;> simp [evaluate, Expr.ownDivisors, Expr.parts]
  | binary op left right =>
    rw [evaluate]
    cases hl : I.evaluate ρ left with
    | none => simp [Expr.parts, hl]
    | some x =>
      cases hr : I.evaluate ρ right with
      | none => simp [Expr.parts, hr]
      | some y =>
        cases op <;> simp [Expr.ownDivisors, Expr.parts, BinaryOp.isField, BinaryOp.onField, hl, hr]
  | call function arguments =>
    rw [evaluate, Option.isSome_map, isSome_evaluateAll_iff]
    simp [Expr.ownDivisors, Expr.parts]
  | cond condition whenTrue whenFalse =>
    rw [evaluate]
    cases hc : I.evaluate ρ condition <;> cases ht : I.evaluate ρ whenTrue <;>
      simp [Expr.ownDivisors, Expr.parts, hc, ht]
  | der operand =>
    rw [evaluate]
    cases hname : operand.scalarName? with
    | none => simp [Expr.ownDivisors, Expr.parts]
    | some name =>
      rw [Expr.eq_of_scalarName? hname]
      simp [Expr.ownDivisors, Expr.parts, evaluate]
  | pre operand =>
    rw [evaluate]
    cases hname : operand.scalarName? with
    | none => simp [Expr.ownDivisors, Expr.parts]
    | some name =>
      rw [Expr.eq_of_scalarName? hname]
      simp [Expr.ownDivisors, Expr.parts, evaluate]
  | foreign kind => simp [evaluate, Expr.ownDivisors, Expr.parts]

theorem isSome_evaluate_iff (e : Expr) :
    (I.evaluate ρ e).isSome = true ↔ ∀ d ∈ e.allDivisors, I.evaluate ρ d ≠ some 0 := by
  induction e using Expr.partsInduction with
  | _ e ih =>
    rw [isSome_evaluate_iff_parts, e.allDivisors_eq, List.forall_mem_append,
      List.forall_mem_flatMap]
    exact and_congr_right fun _ => forall₂_congr ih

/-- An unknown that is met without subscripts has the value that the environment gives it. -/
theorem evaluate_of_isOccurrence (hplain : ∀ site ∈ e.sites false false, site.subscripts = [])
    (h : e.isOccurrence u = true) : I.evaluate ρ e = some (ρ.unknown u) := by
  unfold Expr.isOccurrence at h
  split at h
  · next name subscripts =>
    simp only [Bool.and_eq_true, Bool.not_eq_true', decide_eq_true_eq] at h
    obtain ⟨hkind, rfl⟩ := h
    obtain rfl : subscripts = [] := hplain _ List.mem_cons_self
    simp [evaluate, Environment.unknown, hkind]
  · next name subscripts =>
    simp only [Bool.and_eq_true, decide_eq_true_eq] at h
    obtain ⟨hkind, rfl⟩ := h
    obtain rfl : subscripts = [] := hplain _ List.mem_cons_self
    simp [evaluate, Expr.scalarName?, Environment.unknown, hkind]
  · cases h

/-- Expressions without subscripts meet the unknown with its value in the environment. -/
theorem meets_evaluate (I : Interpretation K) (ρ : Environment K) (u : Occurrence) :
    I.Meets (I.evaluate ρ) u (ρ.unknown u)
      fun e => ∀ site ∈ e.sites false false, site.subscripts = [] where
  isValuation := I.isValuation_evaluate ρ
  hereditary := Model.hereditary_sites fun site => site.subscripts = []
  value_eq _ := evaluate_of_isOccurrence

end Interpretation

end Causality
