import Causality.Proofs.Evaluation.Doubles
import Causality.Proofs.Evaluation.Environments

/-!
# Solutions are equivalent to their equation

Where no divisor and not the coefficient of the unknown is zero, an equation holds exactly if the
unknown has the value of the solution. The solution is free of the unknown.
-/

namespace Causality

namespace Expr

variable {u : Occurrence} {a b lhs rhs s : Expr}

theorem mentions_binary_false {op : BinaryOp} : (binary op a b).mentions u = .ok false ↔
    a.mentions u = .ok false ∧ b.mentions u = .ok false := by
  rw [mentions, bind_eq_ok]
  constructor
  · rintro ⟨found, hfound, h⟩
    cases found with
    | true => cases h
    | false => exact ⟨hfound, h⟩
  · exact fun ⟨ha, hb⟩ => ⟨false, ha, hb⟩

theorem hereditary_free (u : Occurrence) : Hereditary fun e => e.mentions u = .ok false where
  lit _ := rfl
  neg _ := Iff.rfl
  binary _ _ _ := mentions_binary_false

/-- Whatever is put into a form in the unknown is free of it. -/
theorem IsAffine.free_parts {e : Expr} {f : Affine} (h : IsAffine u e f) :
    f.coefficient.mentions u = .ok false ∧ f.constant.mentions u = .ok false :=
  h.parts (hereditary_free u) (fun _ _ => trivial) (fun _ _ _ _ => ⟨trivial, trivial⟩)
    (fun _ _ habsent => habsent) trivial

theorem free_of_solveFor (h : solveFor u lhs rhs = .ok (some s)) : s.mentions u = .ok false := by
  obtain ⟨f, g, numerator, divisor, hroot, rfl⟩ := exists_root h
  obtain ⟨hf, hf'⟩ := hroot.left.free_parts
  obtain ⟨hg, hg'⟩ := hroot.right.free_parts
  have hp := hereditary_free u
  exact hp.quotient (hp.difference hg' hf' hroot.numerator_eq)
    (hp.difference hf hg hroot.divisor_eq)

end Expr

/-- An equation without subscripts that is solved for an unknown: the solution is free of the
unknown, and wherever the divisors and the coefficient of the unknown are nonzero and the folds are
exact, the equation holds exactly if the unknown has the value of the solution. -/
theorem solveFor_is_equivalent (u : Occurrence) (lhs rhs s : Expr)
    (hplain : ∀ site ∈ lhs.sites false false ++ rhs.sites false false, site.subscripts = [])
    (h : solveFor u lhs rhs = .ok (some s)) :
    s.mentions u = .ok false ∧
      ∀ (K : Type) [Field K] [DecidableEq K] (I : Interpretation K) (ρ : Environment K),
        (∀ k ∈ Expr.rootFolds u lhs rhs, I.IsExact k) →
        (∀ d ∈ lhs.allDivisors ++ rhs.allDivisors ++ (Expr.divisor? u lhs rhs).toList,
          I.evaluate ρ d ≠ some 0) →
        ∃ l r v, I.evaluate ρ lhs = some l ∧ I.evaluate ρ rhs = some r ∧
          I.evaluate ρ s = some v ∧ (l = r ↔ ρ.unknown u = v) := by
  refine ⟨Expr.free_of_solveFor h, fun K _ _ I ρ hfolds hregular => ?_⟩
  obtain ⟨hplain, hplain'⟩ := List.forall_mem_append.mp hplain
  obtain ⟨hsides, hcoefficient⟩ := List.forall_mem_append.mp hregular
  obtain ⟨hregular, hregular'⟩ := List.forall_mem_append.mp hsides
  obtain ⟨l, hl⟩ := Option.isSome_iff_exists.mp ((I.isSome_evaluate_iff lhs).mpr hregular)
  obtain ⟨r, hr⟩ := Option.isSome_iff_exists.mp ((I.isSome_evaluate_iff rhs).mpr hregular')
  obtain ⟨f, g, numerator, divisor, hroot, rfl⟩ := Expr.exists_root h
  obtain ⟨x, y, hx, hy, hdiffer⟩ :=
    hroot.values (I.meets_evaluate ρ u) hplain hplain' hfolds hl hr
  have hnonzero : y ≠ 0 := by
    rintro rfl
    refine hcoefficient divisor ?_ hy
    rw [hroot.divisor?_eq]
    exact List.mem_singleton_self divisor
  refine ⟨l, r, x / y, hl, hr, (I.isValuation_evaluate ρ).quotient hx hy hnonzero, ?_⟩
  rw [← sub_eq_zero, hdiffer, sub_eq_zero, eq_div_iff hnonzero]

/-! ### An unknown on both sides -/

namespace Expr.driven

def rate : Occurrence := ⟨"x", .derivative⟩

def input : Expr := .call .sin [.pre (.var "x")]

/-- `2.0 * der(x) + x` -/
def lhs : Expr := .binary .add (.binary .mul (.lit (.real 2.0)) (.der (.var "x"))) (.var "x")

/-- `0.5 * der(x) + sin(pre(x))` -/
def rhs : Expr := .binary .add (.binary .mul (.lit (.real 0.5)) (.der (.var "x"))) input

theorem isNumber_two :
    (lit (.real 2.0)).isNumber 0 = false ∧ (lit (.real 2.0)).isNumber 1 = false :=
  ⟨by decide +kernel, by decide +kernel⟩

theorem isNumber_half :
    (lit (.real 0.5)).isNumber 0 = false ∧ (lit (.real 0.5)).isNumber 1 = false :=
  ⟨by decide +kernel, by decide +kernel⟩

theorem sub_half : Number.sub (.real 2.0) (.real 0.5) = .ok (.real 1.5) := by decide +kernel

theorem isAffine_scaled {x : Float}
    (h : (lit (.real x)).isNumber 0 = false ∧ (lit (.real x)).isNumber 1 = false) :
    IsAffine rate (.binary .mul (.lit (.real x)) (.der (.var "x"))) ⟨.lit (.real x), .zero⟩ :=
  .mulRight rfl rfl (.self rfl)
    (Affine.scaledLeft_eq_ok.mpr ⟨product_one h.1 h.2, product_zero _⟩)

theorem isRoot : IsRoot rate lhs rhs ⟨.lit (.real 2.0), .var "x"⟩ ⟨.lit (.real 0.5), input⟩
    (.binary .sub input (.var "x")) (.lit (.real 1.5)) where
  left := .add rfl (isAffine_scaled isNumber_two) (.free rfl)
    (Affine.sum_eq_ok.mpr ⟨sum_zero isNumber_two.1, zero_sum _⟩)
  right := .add rfl (isAffine_scaled isNumber_half) (.free rfl)
    (Affine.sum_eq_ok.mpr ⟨sum_zero isNumber_half.1, zero_sum _⟩)
  divisor_eq := by
    simp [difference, isNumber_two.1, isNumber_half.1, compute, number?, Number.isBool, sub_half,
      Except.map, Except.mapError]
  nonzero := by decide +kernel
  numerator_eq := rfl

theorem rootFolds_eq : rootFolds rate lhs rhs = [⟨.sub, .real 2.0, .real 0.5, .real 1.5⟩] := by
  rw [isRoot.rootFolds_eq, lhs, rhs, folds_add rfl (isAffine_scaled isNumber_two) (.free rfl),
    folds_add rfl (isAffine_scaled isNumber_half) (.free rfl), folds_mulRight rfl rfl (.self rfl),
    folds_mulRight rfl rfl (.self rfl)]
  simp only [Affine.sumFolds, Affine.scaledLeftFolds, Affine.rootFolds, productFolds_one,
    productFolds_zero, sumFolds_zero, zero_sumFolds, differenceFolds, isNumber_two.1,
    isNumber_half.1, computeFolds, number?, Number.isBool]
  rfl

/-- The solution `(sin(pre(x)) - x) / 1.5`. -/
theorem solveFor_eq : solveFor rate lhs rhs =
    .ok (some (.binary .div (.binary .sub input (.var "x")) (.lit (.real 1.5)))) := by
  have hone : (lit (.real 1.5)).isNumber 1 = false := by decide +kernel
  have hminus : (lit (.real 1.5)).isNumber (-1) = false := by decide +kernel
  rw [isRoot.solveFor_eq, quotient, hone, hminus]
  rfl

/-- Doubles are exact, and a function returns its first argument. -/
def interpretation : Interpretation ℚ := .exact (fun b => b.toInt) fun _ xs => xs.headD 0

def environment : Environment ℚ where
  value _ := 3
  derivative _ := 2
  previous _ := 6

theorem number_eq : interpretation.number (.real 0.5) = 1 / 2 ∧
    interpretation.number (.real 1.5) = 3 / 2 ∧ interpretation.number (.real 2.0) = 2 :=
  ⟨by decide +kernel, by decide +kernel, by decide +kernel⟩

theorem evaluate_input : interpretation.evaluate environment input = some 6 := rfl

theorem evaluate_sides : interpretation.evaluate environment lhs = some 7 ∧
    interpretation.evaluate environment rhs = some 7 := by
  have hvalue : environment.value "x" = 3 := rfl
  have hrate : environment.derivative "x" = 2 := rfl
  rw [lhs, rhs]
  simp [Interpretation.evaluate, evaluate_input, number_eq, BinaryOp.isField, BinaryOp.onField,
    scalarName?, Expr.var, hvalue, hrate]
  norm_num

end Expr.driven

open Expr.driven in
theorem driven_solution_is_equivalent : ∃ s, solveFor rate lhs rhs = .ok (some s) ∧
    s.mentions rate = .ok false ∧ interpretation.evaluate environment lhs = some 7 ∧
      interpretation.evaluate environment rhs = some 7 ∧
      interpretation.evaluate environment s = some (environment.unknown rate) := by
  have hplain : ∀ site ∈ lhs.sites false false ++ rhs.sites false false, site.subscripts = [] := by
    simp [lhs, rhs, input, Expr.var, Expr.sites, Expr.sitesAll]
  obtain ⟨hfree, hequivalent⟩ := solveFor_is_equivalent rate lhs rhs _ hplain solveFor_eq
  have hfolds : ∀ k ∈ Expr.rootFolds rate lhs rhs, interpretation.IsExact k := by
    rw [rootFolds_eq, List.forall_mem_singleton, Interpretation.IsExact]
    simp [BinaryOp.onField, number_eq]
    norm_num
  have hregular : ∀ d ∈ lhs.allDivisors ++ rhs.allDivisors ++ (Expr.divisor? rate lhs rhs).toList,
      interpretation.evaluate environment d ≠ some 0 := by
    rw [isRoot.divisor?_eq]
    simp [Expr.allDivisors_eq, Expr.ownDivisors, Expr.parts, lhs, rhs, input, Expr.var,
      Interpretation.evaluate, number_eq]
  obtain ⟨l, r, v, hl, hr, hv, hiff⟩ := hequivalent ℚ interpretation environment hfolds hregular
  obtain ⟨hleft, hright⟩ := evaluate_sides
  refine ⟨_, solveFor_eq, hfree, hleft, hright, hv.trans (congrArg some (hiff.mp ?_).symm)⟩
  exact Option.some.inj ((hl.symm.trans hleft).trans (hright.symm.trans hr))

end Causality
