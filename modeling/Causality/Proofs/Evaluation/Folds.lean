import Causality.Proofs.Evaluation.Values
import Mathlib.Algebra.GroupWithZero.Basic
import Mathlib.Tactic.Ring

/-!
# Values of folded arithmetic

Dropping a neutral operand and negating a literal are exact. Computing with two literals is a fold,
and doubles round, so a fold has to be exact on its own. Where the folds are exact, folded
arithmetic has the values of the field. A quotient with numerator zero has the value zero whatever
its divisor.
-/

namespace Causality

variable {K : Type} [Field K] {I : Interpretation K} {a b c : Expr} {x y w : K}

structure Fold where
  op : BinaryOp
  left : Number
  right : Number
  result : Number

/-- The literals stand for values of which the operation of the field gives the result. -/
def Interpretation.IsExact [DecidableEq K] (I : Interpretation K) (k : Fold) : Prop :=
  k.op.onField (I.number k.left) (I.number k.right) = some (I.number k.result)

namespace Expr

def computeFolds (op : BinaryOp) (operation : Number → Number → Except ConversionFault Number)
    (a b : Expr) : List Fold :=
  match a.number?, b.number? with
  | some x, some y =>
    match operation x y with
    | .ok z => [⟨op, x, y, z⟩]
    | .error _ => []
  | _, _ => []

def sumFolds (a b : Expr) : List Fold :=
  if a.isNumber 0 || b.isNumber 0 then [] else computeFolds .add Number.add a b

def differenceFolds (a b : Expr) : List Fold :=
  if b.isNumber 0 || a.isNumber 0 then [] else computeFolds .sub Number.sub a b

def productFolds (a b : Expr) : List Fold :=
  if a.isNumber 0 || b.isNumber 0 || a.isNumber 1 || b.isNumber 1 then []
  else computeFolds .mul Number.mul a b

/-! A neutral operand is dropped, and so is not computed with. -/

theorem zero_sumFolds (b : Expr) : zero.sumFolds b = [] := by simp [sumFolds, isNumber_zero]

theorem sumFolds_zero (a : Expr) : a.sumFolds zero = [] := by simp [sumFolds, isNumber_zero]

theorem differenceFolds_zero (a : Expr) : a.differenceFolds zero = [] := by
  simp [differenceFolds, isNumber_zero]

theorem productFolds_zero (a : Expr) : a.productFolds zero = [] := by
  simp [productFolds, isNumber_zero]

theorem productFolds_one (a : Expr) : a.productFolds one = [] := by
  simp [productFolds, isNumber_one]

end Expr

namespace Interpretation

theorem number_neg (n : Number) (h : n.isBool = false) : I.number n.neg = -I.number n := by
  cases n with
  | int k => exact Int.cast_neg k
  | real x => exact I.real_neg x
  | bool b => cases h

namespace IsValuation

variable [DecidableEq K] {val : Expr → Option K} (h : I.IsValuation val)

include h

theorem neg_eq (ha : val a = some x) : val (.unary .neg a) = some (-x) := by
  rw [h.neg, ha]
  rfl

theorem negation (ha : val a = some x) : val a.negation = some (-x) := by
  unfold Expr.negation
  split
  · next n =>
    obtain rfl : I.number n = x := Option.some.inj ((h.lit n).symm.trans ha)
    split_ifs with hbool
    · exact h.neg_eq ha
    · rw [h.lit, I.number_neg n (Bool.eq_false_iff.mpr hbool)]
  · next operand =>
    rw [h.neg] at ha
    obtain ⟨y, hy, rfl⟩ := Option.map_eq_some_iff.mp ha
    rwa [neg_neg]
  · exact h.neg_eq ha

theorem compute {op : BinaryOp} {operation : Number → Number → Except ConversionFault Number}
    (hop : op.isField = true) (hfolds : ∀ k ∈ Expr.computeFolds op operation a b, I.IsExact k)
    (ha : val a = some x) (hb : val b = some y) (hc : Expr.compute op operation a b = .ok c) :
    val c = op.onField x y := by
  obtain ⟨k, n, z, hk, hn, hz, rfl⟩ | rfl := Expr.compute_eq_ok hc
  · rw [Expr.computeFolds, hk, hn] at hfolds
    simp only [hz, List.forall_mem_singleton] at hfolds
    obtain rfl : I.number k = x := Option.some.inj ((h.of_number? hk).symm.trans ha)
    obtain rfl : I.number n = y := Option.some.inj ((h.of_number? hn).symm.trans hb)
    rw [h.lit]
    exact hfolds.symm
  · rw [h.binary op a b hop, ha, hb]
    rfl

theorem sum (hfolds : ∀ k ∈ a.sumFolds b, I.IsExact k) (ha : val a = some x) (hb : val b = some y)
    (hc : a.sum b = .ok c) : val c = some (x + y) := by
  unfold Expr.sum at hc
  split_ifs at hc with hleft hright
  · rw [h.eq_of_isNumber ha hleft, Int.cast_zero, zero_add, ← Except.ok.inj hc, hb]
  · rw [h.eq_of_isNumber hb hright, Int.cast_zero, add_zero, ← Except.ok.inj hc, ha]
  · refine h.compute rfl ?_ ha hb hc
    simpa [Expr.sumFolds, hleft, hright] using hfolds

theorem difference (hfolds : ∀ k ∈ a.differenceFolds b, I.IsExact k) (ha : val a = some x)
    (hb : val b = some y) (hc : a.difference b = .ok c) : val c = some (x - y) := by
  unfold Expr.difference at hc
  split_ifs at hc with hright hleft
  · rw [h.eq_of_isNumber hb hright, Int.cast_zero, sub_zero, ← Except.ok.inj hc, ha]
  · rw [h.eq_of_isNumber ha hleft, Int.cast_zero, zero_sub, ← Except.ok.inj hc, h.negation hb]
  · refine h.compute rfl ?_ ha hb hc
    simpa [Expr.differenceFolds, hleft, hright] using hfolds

theorem product (hfolds : ∀ k ∈ a.productFolds b, I.IsExact k) (ha : val a = some x)
    (hb : val b = some y) (hc : a.product b = .ok c) : val c = some (x * y) := by
  unfold Expr.product at hc
  split_ifs at hc with hzero hleft hright
  · rw [← Except.ok.inj hc, h.zero]
    rcases Bool.or_eq_true _ _ ▸ hzero with hleft | hright
    · rw [h.eq_of_isNumber ha hleft, Int.cast_zero, zero_mul]
    · rw [h.eq_of_isNumber hb hright, Int.cast_zero, mul_zero]
  · rw [h.eq_of_isNumber ha hleft, Int.cast_one, one_mul, ← Except.ok.inj hc, hb]
  · rw [h.eq_of_isNumber hb hright, Int.cast_one, mul_one, ← Except.ok.inj hc, ha]
  · refine h.compute rfl ?_ ha hb hc
    simpa [Expr.productFolds, hzero, hleft, hright] using hfolds

theorem quotient (ha : val a = some x) (hb : val b = some y) (hy : y ≠ 0) :
    val (a.quotient b) = some (x / y) := by
  unfold Expr.quotient
  split_ifs with hone hzero hminus
  · rw [h.eq_of_isNumber hb hone, Int.cast_one, div_one, ha]
  · rw [h.eq_of_isNumber ha hzero, Int.cast_zero, zero_div, h.zero]
  · rw [h.eq_of_isNumber hb hminus, Int.cast_neg, Int.cast_one, div_neg, div_one, h.negation ha]
  · exact (h.binary_eq_some rfl).mpr ⟨x, y, ha, hb, if_neg hy⟩

/-- The value times the divisor is the numerator, also where the divisor is dropped. -/
theorem quotient_mul (ha : val a = some x) (hb : val b = some y)
    (hw : val (a.quotient b) = some w) : w * y = x := by
  unfold Expr.quotient at hw
  split_ifs at hw with hone hzero hminus
  · rw [h.eq_of_isNumber hb hone, Int.cast_one, mul_one]
    exact Option.some.inj (hw.symm.trans ha)
  · rw [h.eq_of_isNumber ha hzero, ← Option.some.inj (h.zero.symm.trans hw), Int.cast_zero,
      zero_mul]
  · rw [h.eq_of_isNumber hb hminus, ← Option.some.inj ((h.negation ha).symm.trans hw)]
    simp
  · obtain ⟨x', y', hx, hy, hquotient⟩ := (h.binary_eq_some rfl).mp hw
    obtain rfl := Option.some.inj (ha.symm.trans hx)
    obtain rfl := Option.some.inj (hb.symm.trans hy)
    rw [BinaryOp.onField] at hquotient
    split_ifs at hquotient with hzero'
    rw [← Option.some.inj hquotient]
    exact div_mul_cancel₀ x hzero'

end IsValuation

end Interpretation

end Causality
