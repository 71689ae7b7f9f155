import Causality.Proofs.Evaluation.Folds

/-!
# Values of affine forms

If an expression has a value and its form is found with exact folds, the form has that value, for
each value of the unknown. So the sides of an equation are equal exactly if the unknown times the
divisor of the root is the numerator.
-/

namespace Causality

open Causality.Expr (IsAffine IsRoot Hereditary)

variable {K : Type} [Field K] [DecidableEq K] {I : Interpretation K} {val : Expr → Option K}
  {u : Occurrence} {e a b lhs rhs numerator divisor : Expr} {f g k : Affine} {t v w x : K}

/-! ### Folds -/

namespace Affine

def sumFolds (f g : Affine) : List Fold :=
  f.coefficient.sumFolds g.coefficient ++ f.constant.sumFolds g.constant

def differenceFolds (f g : Affine) : List Fold :=
  f.coefficient.differenceFolds g.coefficient ++ f.constant.differenceFolds g.constant

def scaledLeftFolds (factor : Expr) (f : Affine) : List Fold :=
  factor.productFolds f.coefficient ++ factor.productFolds f.constant

def scaledRightFolds (f : Affine) (factor : Expr) : List Fold :=
  f.coefficient.productFolds factor ++ f.constant.productFolds factor

def rootFolds (f g : Affine) : List Fold :=
  f.coefficient.differenceFolds g.coefficient ++ g.constant.differenceFolds f.constant

end Affine

namespace Expr

def isMentioned (u : Occurrence) (e : Expr) : Bool := (e.mentions u).toOption = some true

def form? (u : Occurrence) (e : Expr) : Option Affine := (e.affine? u).toOption.join

/-- What `folds` gives for the forms of two expressions that both have one. -/
def foldsOfForms (u : Occurrence) (a b : Expr) (folds : Affine → Affine → List Fold) : List Fold :=
  match a.form? u, b.form? u with
  | some f, some g => folds f g
  | _, _ => []

/-- The folds that are made in the search for the form of an expression. -/
def folds (u : Occurrence) : Expr → List Fold
  | unary .neg operand => folds u operand
  | binary .add left right =>
    folds u left ++ folds u right ++
      if isMentioned u (binary .add left right) then foldsOfForms u left right Affine.sumFolds
      else []
  | binary .sub left right =>
    folds u left ++ folds u right ++
      if isMentioned u (binary .sub left right) then
        foldsOfForms u left right Affine.differenceFolds
      else []
  | binary .mul left right =>
    folds u left ++ folds u right ++
      if isMentioned u left then (form? u left).elim [] (·.scaledRightFolds right)
      else if isMentioned u right then (form? u right).elim [] (Affine.scaledLeftFolds left)
      else []
  | binary .div left _ => folds u left
  | _ => []
termination_by structural e => e

def rootFolds (u : Occurrence) (lhs rhs : Expr) : List Fold :=
  lhs.folds u ++ rhs.folds u ++ foldsOfForms u lhs rhs Affine.rootFolds

/-- What the root is divided by: the coefficient of the unknown. -/
def divisor? (u : Occurrence) (lhs rhs : Expr) : Option Expr :=
  match lhs.form? u, rhs.form? u with
  | some f, some g => (f.coefficient.difference g.coefficient).toOption
  | _, _ => none

theorem IsAffine.form?_eq (h : IsAffine u e f) : e.form? u = some f := by
  rw [form?, h.affine?_eq]
  rfl

theorem isMentioned_eq {found : Bool} (h : e.mentions u = .ok found) : isMentioned u e = found := by
  rw [isMentioned, h]
  cases found <;> rfl

theorem folds_add (hmentioned : (binary .add a b).mentions u = .ok true) (ha : IsAffine u a f)
    (hb : IsAffine u b g) :
    (binary .add a b).folds u = a.folds u ++ b.folds u ++ f.sumFolds g := by
  rw [folds, isMentioned_eq hmentioned, if_pos rfl, foldsOfForms, ha.form?_eq, hb.form?_eq]

theorem folds_sub (hmentioned : (binary .sub a b).mentions u = .ok true) (ha : IsAffine u a f)
    (hb : IsAffine u b g) :
    (binary .sub a b).folds u = a.folds u ++ b.folds u ++ f.differenceFolds g := by
  rw [folds, isMentioned_eq hmentioned, if_pos rfl, foldsOfForms, ha.form?_eq, hb.form?_eq]

theorem folds_mulLeft (hmentioned : a.mentions u = .ok true) (ha : IsAffine u a f) :
    (binary .mul a b).folds u = a.folds u ++ b.folds u ++ f.scaledRightFolds b := by
  rw [folds, isMentioned_eq hmentioned, if_pos rfl, ha.form?_eq]
  rfl

theorem folds_mulRight (habsent : a.mentions u = .ok false) (hmentioned : b.mentions u = .ok true)
    (hb : IsAffine u b g) :
    (binary .mul a b).folds u = a.folds u ++ b.folds u ++ Affine.scaledLeftFolds a g := by
  rw [folds, isMentioned_eq habsent, isMentioned_eq hmentioned, if_neg Bool.false_ne_true,
    if_pos rfl, hb.form?_eq]
  rfl

theorem IsRoot.rootFolds_eq (h : IsRoot u lhs rhs f g numerator divisor) :
    rootFolds u lhs rhs = lhs.folds u ++ rhs.folds u ++ f.rootFolds g := by
  rw [rootFolds, foldsOfForms, h.left.form?_eq, h.right.form?_eq]

theorem IsRoot.divisor?_eq (h : IsRoot u lhs rhs f g numerator divisor) :
    divisor? u lhs rhs = some divisor := by
  rw [divisor?, h.left.form?_eq, h.right.form?_eq]
  exact congrArg Except.toOption h.divisor_eq

end Expr

/-! ### Forms -/

/-- The parts of the form have values. With the value `t` of the unknown these give `v`. -/
def Affine.Fits (val : Expr → Option K) (t : K) (f : Affine) (v : K) : Prop :=
  ∃ x y, val f.coefficient = some x ∧ val f.constant = some y ∧ v = x * t + y

namespace Affine.Fits

variable (h : I.IsValuation val)

include h

theorem negation (hf : f.Fits val t v) : f.negation.Fits val t (-v) := by
  obtain ⟨x, y, hx, hy, rfl⟩ := hf
  exact ⟨-x, -y, h.negation hx, h.negation hy, by ring⟩

theorem sum (hfolds : ∀ k ∈ f.sumFolds g, I.IsExact k) (hf : f.Fits val t v) (hg : g.Fits val t w)
    (hk : f.sum g = .ok k) : k.Fits val t (v + w) := by
  obtain ⟨x, y, hx, hy, rfl⟩ := hf
  obtain ⟨x', y', hx', hy', rfl⟩ := hg
  obtain ⟨hcoefficient, hconstant⟩ := Affine.sum_eq_ok.mp hk
  obtain ⟨hfolds, hfolds'⟩ := List.forall_mem_append.mp hfolds
  exact ⟨x + x', y + y', h.sum hfolds hx hx' hcoefficient, h.sum hfolds' hy hy' hconstant, by ring⟩

theorem difference (hfolds : ∀ k ∈ f.differenceFolds g, I.IsExact k) (hf : f.Fits val t v)
    (hg : g.Fits val t w) (hk : f.difference g = .ok k) : k.Fits val t (v - w) := by
  obtain ⟨x, y, hx, hy, rfl⟩ := hf
  obtain ⟨x', y', hx', hy', rfl⟩ := hg
  obtain ⟨hcoefficient, hconstant⟩ := Affine.difference_eq_ok.mp hk
  obtain ⟨hfolds, hfolds'⟩ := List.forall_mem_append.mp hfolds
  exact ⟨x - x', y - y', h.difference hfolds hx hx' hcoefficient,
    h.difference hfolds' hy hy' hconstant, by ring⟩

theorem scaledLeft (hfolds : ∀ k ∈ Affine.scaledLeftFolds a f, I.IsExact k) (ha : val a = some w)
    (hf : f.Fits val t v) (hk : Affine.scaledLeft a f = .ok k) : k.Fits val t (w * v) := by
  obtain ⟨x, y, hx, hy, rfl⟩ := hf
  obtain ⟨hcoefficient, hconstant⟩ := Affine.scaledLeft_eq_ok.mp hk
  obtain ⟨hfolds, hfolds'⟩ := List.forall_mem_append.mp hfolds
  exact ⟨w * x, w * y, h.product hfolds ha hx hcoefficient, h.product hfolds' ha hy hconstant,
    by ring⟩

theorem scaledRight (hfolds : ∀ k ∈ f.scaledRightFolds a, I.IsExact k) (hf : f.Fits val t v)
    (ha : val a = some w) (hk : f.scaledRight a = .ok k) : k.Fits val t (v * w) := by
  obtain ⟨x, y, hx, hy, rfl⟩ := hf
  obtain ⟨hcoefficient, hconstant⟩ := Affine.scaledRight_eq_ok.mp hk
  obtain ⟨hfolds, hfolds'⟩ := List.forall_mem_append.mp hfolds
  exact ⟨x * w, y * w, h.product hfolds hx ha hcoefficient, h.product hfolds' hy ha hconstant,
    by ring⟩

theorem dividedBy (hf : f.Fits val t v) (ha : val a = some w) (hw : w ≠ 0) :
    (f.dividedBy a).Fits val t (v / w) := by
  obtain ⟨x, y, hx, hy, rfl⟩ := hf
  exact ⟨x / w, y / w, h.quotient hx ha hw, h.quotient hy ha hw, by ring⟩

end Affine.Fits

/-- Where the unknown is met, it is met with the value `t`. Only expressions with the property `q`
are met, which passes to operands. -/
structure Interpretation.Meets (I : Interpretation K) (val : Expr → Option K) (u : Occurrence)
    (t : K) (q : Expr → Prop) : Prop where
  isValuation : I.IsValuation val
  hereditary : Hereditary q
  value_eq : ∀ e, q e → e.isOccurrence u = true → val e = some t

namespace Expr

variable {q : Expr → Prop} (hmeets : I.Meets val u t q)

include hmeets

theorem IsAffine.fits (h : IsAffine u e f) (he : q e) (hfolds : ∀ k ∈ e.folds u, I.IsExact k)
    (hv : val e = some v) : f.Fits val t v := by
  have hval := hmeets.isValuation
  have hbinary {op a b} := hmeets.hereditary.binary op a b
  induction h generalizing v with
  | free => exact ⟨0, v, hval.zero, hv, by ring⟩
  | self hunknown =>
    obtain rfl := Option.some.inj ((hmeets.value_eq _ he hunknown).symm.trans hv)
    exact ⟨1, 0, hval.one, hval.zero, by ring⟩
  | neg _ _ ih =>
    rw [hval.neg] at hv
    obtain ⟨x, hx, rfl⟩ := Option.map_eq_some_iff.mp hv
    exact (ih ((hmeets.hereditary.neg _).mp he) hfolds hx).negation hval
  | add hmentioned hleft hright htotal ihleft ihright =>
    obtain ⟨x, y, hx, hy, hvalue⟩ := (hval.binary_eq_some rfl).mp hv
    rw [folds_add hmentioned hleft hright] at hfolds
    simp only [List.forall_mem_append] at hfolds
    obtain ⟨⟨hfolds, hfolds'⟩, hown⟩ := hfolds
    rw [← Option.some.inj hvalue]
    exact .sum hval hown (ihleft (hbinary.mp he).1 hfolds hx) (ihright (hbinary.mp he).2 hfolds' hy)
      htotal
  | sub hmentioned hleft hright htotal ihleft ihright =>
    obtain ⟨x, y, hx, hy, hvalue⟩ := (hval.binary_eq_some rfl).mp hv
    rw [folds_sub hmentioned hleft hright] at hfolds
    simp only [List.forall_mem_append] at hfolds
    obtain ⟨⟨hfolds, hfolds'⟩, hown⟩ := hfolds
    rw [← Option.some.inj hvalue]
    exact .difference hval hown (ihleft (hbinary.mp he).1 hfolds hx)
      (ihright (hbinary.mp he).2 hfolds' hy) htotal
  | mulLeft hmentioned _ hleft htotal ih =>
    obtain ⟨x, y, hx, hy, hvalue⟩ := (hval.binary_eq_some rfl).mp hv
    rw [folds_mulLeft hmentioned hleft] at hfolds
    simp only [List.forall_mem_append] at hfolds
    obtain ⟨⟨hfolds, _⟩, hown⟩ := hfolds
    rw [← Option.some.inj hvalue]
    exact .scaledRight hval hown (ih (hbinary.mp he).1 hfolds hx) hy htotal
  | mulRight habsent hmentioned hright htotal ih =>
    obtain ⟨x, y, hx, hy, hvalue⟩ := (hval.binary_eq_some rfl).mp hv
    rw [folds_mulRight habsent hmentioned hright] at hfolds
    simp only [List.forall_mem_append] at hfolds
    obtain ⟨⟨_, hfolds⟩, hown⟩ := hfolds
    rw [← Option.some.inj hvalue]
    exact .scaledLeft hval hown hx (ih (hbinary.mp he).2 hfolds hy) htotal
  | div _ _ _ ih =>
    obtain ⟨x, y, hx, hy, hvalue⟩ := (hval.binary_eq_some rfl).mp hv
    rw [BinaryOp.onField] at hvalue
    split_ifs at hvalue with hzero
    rw [← Option.some.inj hvalue]
    exact (ih (hbinary.mp he).1 hfolds hx).dividedBy hval hy hzero

/-! ### Roots -/

/-- The sides differ by the unknown times the divisor, less the numerator. -/
theorem IsRoot.values (h : IsRoot u lhs rhs f g numerator divisor) (hl : q lhs) (hr : q rhs)
    (hfolds : ∀ k ∈ rootFolds u lhs rhs, I.IsExact k) (hlhs : val lhs = some v)
    (hrhs : val rhs = some w) : ∃ x y, val numerator = some x ∧ val divisor = some y ∧
      v - w = t * y - x := by
  have hval := hmeets.isValuation
  rw [h.rootFolds_eq] at hfolds
  simp only [List.forall_mem_append] at hfolds
  obtain ⟨⟨hleft, hright⟩, hown⟩ := hfolds
  obtain ⟨hdivisor, hnumerator⟩ := List.forall_mem_append.mp hown
  obtain ⟨x, y, hx, hy, rfl⟩ := h.left.fits hmeets hl hleft hlhs
  obtain ⟨x', y', hx', hy', rfl⟩ := h.right.fits hmeets hr hright hrhs
  exact ⟨y' - y, x - x', hval.difference hnumerator hy' hy h.numerator_eq,
    hval.difference hdivisor hx hx' h.divisor_eq, by ring⟩

end Expr

/-- The values of a model are those that it assigns to its quantities. -/
theorem Model.IsUnknown.meets {m : Model} {ρ : Occurrence → K} (hu : m.IsUnknown u) :
    I.Meets (I.value m ρ) u (ρ u) fun _ => True where
  isValuation := I.isValuation_value m ρ
  hereditary := ⟨fun _ => trivial, fun _ => .rfl, fun _ _ _ => (and_self_iff).symm⟩
  value_eq _ _ hunknown := I.value_of_isOccurrence hu hunknown

end Causality
