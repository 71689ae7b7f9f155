import Causality.Expr.Subscript
import Causality.Proofs.Rounding

/-!
# Arithmetic in subscripts

Sums, differences and products of integers are exact, however large they become. Only the literals
pass through doubles: one that is rounded there is refused, and so the same number may be admitted
as a sum and refused as a literal. The first literal that is refused, from the left, decides.
-/

namespace Causality

/-- Arithmetic on integer literals. -/
inductive Arithmetic where
  | lit (value : Int)
  | neg (operand : Arithmetic)
  | add (left right : Arithmetic)
  | sub (left right : Arithmetic)
  | mul (left right : Arithmetic)

namespace Arithmetic

def expr : Arithmetic → Expr
  | lit value => .lit (.int value)
  | neg operand => .unary .neg operand.expr
  | add left right => .binary .add left.expr right.expr
  | sub left right => .binary .sub left.expr right.expr
  | mul left right => .binary .mul left.expr right.expr

def value : Arithmetic → Int
  | lit value => value
  | neg operand => -operand.value
  | add left right => left.value + right.value
  | sub left right => left.value - right.value
  | mul left right => left.value * right.value

def literals : Arithmetic → List Int
  | lit value => [value]
  | neg operand => operand.literals
  | add left right | sub left right | mul left right => left.literals ++ right.literals

/-- Why a literal is refused: there is no double to round it to, or that double differs. -/
def refusal (n : Int) : Fault :=
  match doubleOf n with
  | .error cause => .conversion cause
  | .ok _ => .nonIntegerSubscript (.lit (.int n))

/-- The first of the literals that is not a double. -/
def refused? (literals : List Int) : Option Int := literals.find? fun n => ¬ IsDouble n

/-- The result, unless one of the literals is refused. -/
def admitted {α : Type} (literals : List Int) (result : Except Fault α) : Except Fault α :=
  match refused? literals with
  | none => result
  | some n => .error (refusal n)

variable {α β : Type} {ms ns : List Int} {n : Int} {result : Except Fault α}

/-! ### Literals -/

theorem evaluateInt_of_isDouble (h : IsDouble n) : (Expr.lit (.int n)).evaluateInt = .ok n := by
  obtain ⟨x, hx, hwhole⟩ := h
  rw [Expr.evaluateInt, Number.subscript?_int, hx]
  simp only [Except.map, hwhole, if_true]

theorem isWritable_of_bounded (h : beyondDouble n = false) : isWritable n = true := by
  have hpower : Decimal.twos 1024 - Decimal.twos 970 ≤ 10 ^ digitLimit := by decide +kernel
  have hsmall : n.natAbs < Decimal.twos 1024 - Decimal.twos 970 :=
    Nat.lt_of_not_le (of_decide_eq_false h)
  exact decide_eq_true (Nat.toDigits_length 10 _ _ (by decide) (hsmall.trans_le hpower))

theorem evaluateInt_of_not_isDouble (h : ¬ IsDouble n) :
    (Expr.lit (.int n)).evaluateInt = .error (refusal n) := by
  rw [Expr.evaluateInt, Number.subscript?_int]
  unfold refusal
  cases hdouble : doubleOf n with
  | error cause => rfl
  | ok x =>
    -- An integer that a double can be near to is short enough for the message.
    have hbounded : beyondDouble n = false := by
      by_contra hbeyond
      rw [doubleOf, if_pos (Bool.of_not_eq_false hbeyond)] at hdouble
      cases hdouble
    have hraised : (Fault.nonIntegerSubscript (.lit (.int n))).raised =
        .nonIntegerSubscript (.lit (.int n)) := if_pos (isWritable_of_bounded hbounded)
    rw [isDouble_iff_of_ok hdouble] at h
    simp only [Except.map, h, if_false, hraised]

theorem refusal_of_bounded (h : beyondDouble n = false) :
    refusal n = .nonIntegerSubscript (.lit (.int n)) := by
  unfold refusal doubleOf
  simp only [h, Bool.false_eq_true, if_false]

theorem evaluateInt_lit (n : Int) : (Expr.lit (.int n)).evaluateInt = admitted [n] (.ok n) := by
  rw [admitted, refused?, List.find?_singleton]
  by_cases h : IsDouble n
  · rw [if_neg (by simpa using h), evaluateInt_of_isDouble h]
  · rw [if_pos (by simpa using h), evaluateInt_of_not_isDouble h]

theorem admitted_append : admitted (ms ++ ns) result = admitted ms (admitted ns result) := by
  simp only [admitted, refused?, List.find?_append]
  cases ms.find? fun n => ¬ IsDouble n <;> rfl

theorem admitted_bind {f : α → Except Fault β} :
    admitted ns result >>= f = admitted ns (result >>= f) := by
  unfold admitted
  cases refused? ns <;> rfl

/-! ### Expressions -/

/-- The evaluation has the exact value as its result where every literal is admitted. -/
theorem evaluateInt_expr (t : Arithmetic) :
    t.expr.evaluateInt = admitted t.literals (.ok t.value) := by
  induction t with
  | lit value => exact evaluateInt_lit value
  | neg operand ih =>
    rw [expr, Expr.evaluateInt, ih, admitted_bind]
    rfl
  | add left right ihl ihr | sub left right ihl ihr | mul left right ihl ihr =>
    rw [expr, Expr.evaluateInt, ihl, ihr, admitted_bind, literals, admitted_append]
    refine congrArg (admitted left.literals) ?_
    change admitted right.literals (.ok right.value) >>= _ = _
    rw [admitted_bind]
    rfl

theorem mapM_evaluateInt (ts : List Arithmetic) : (ts.map expr).mapM Expr.evaluateInt =
    admitted (ts.flatMap literals) (.ok (ts.map value)) := by
  induction ts with
  | nil => rfl
  | cons t rest ih =>
    rw [List.map_cons, List.mapM_cons, evaluateInt_expr, ih, admitted_bind, List.flatMap_cons,
      admitted_append]
    refine congrArg (admitted t.literals) ?_
    change admitted (rest.flatMap literals) (.ok (rest.map value)) >>= _ = _
    rw [admitted_bind]
    rfl

theorem resolve_expr {name : String} {ts : List Arithmetic} (hne : ts ≠ []) :
    (Expr.ref name (ts.map expr)).resolve =
      admitted (ts.flatMap literals) (Expr.element name (ts.map value)) := by
  have hempty : ¬ (ts.map expr).isEmpty = true := by simpa using hne
  rw [Expr.resolve, if_neg hempty, mapM_evaluateInt, admitted_bind]
  rfl

/-- Arithmetic on literals that are doubles has its exact value, and a reference with such
subscripts becomes the element that these values name, if they can be written. Otherwise the first
literal that is not a double is refused, whatever the value would be. -/
theorem subscript_arithmetic_is_exact (t : Arithmetic) (name : String) (ts : List Arithmetic) :
    (t.expr.evaluateInt =
      match t.literals.find? fun n => ¬ IsDouble n with
      | none => .ok t.value
      | some n => .error (refusal n)) ∧
    (Expr.ref name ((t :: ts).map expr)).resolve =
      match ((t :: ts).flatMap literals).find? fun n => ¬ IsDouble n with
      | none =>
        if ∀ v ∈ (t :: ts).map value, isWritable v = true then
          .ok (.var (elementName name ((t :: ts).map value)))
        else .error .unwritableInteger
      | some n => .error (refusal n) := by
  have helement : Expr.element name ((t :: ts).map value) =
      if ∀ v ∈ (t :: ts).map value, isWritable v = true then
        .ok (.var (elementName name ((t :: ts).map value)))
      else .error .unwritableInteger := by
    simp only [Expr.element, List.all_eq_true]
  refine ⟨evaluateInt_expr t, ?_⟩
  rw [resolve_expr (List.cons_ne_nil t ts), helement]
  rfl

/-- The product `9007199254740992 * (9007199254740992 + 1)`, of three doubles, is no double. -/
def product : Arithmetic :=
  .mul (.lit 9007199254740992) (.add (.lit 9007199254740992) (.lit 1))

theorem product_is_exact : product.expr.evaluateInt = .ok 81129638414606690702988259885056 ∧
    ¬ IsDouble 81129638414606690702988259885056 ∧
    (Expr.ref "x" ([product, .neg (.lit 3)].map expr)).resolve =
      .ok (.var "x[81129638414606690702988259885056,-3]") := by
  obtain ⟨hvalue, hresolve⟩ := subscript_arithmetic_is_exact product "x" [.neg (.lit 3)]
  have hproduct : (product.literals.find? fun n => ¬ IsDouble n) = none := by decide +kernel
  have hall : (([product, .neg (.lit 3)].flatMap literals).find? fun n => ¬ IsDouble n) = none := by
    decide +kernel
  have hwritable : ∀ v ∈ [product, .neg (.lit 3)].map value, isWritable v = true := by
    decide +kernel
  refine ⟨?_, by decide +kernel, ?_⟩
  · rw [hvalue, hproduct]
    rfl
  · have hname : elementName "x" ([product, .neg (.lit 3)].map value) =
        "x[81129638414606690702988259885056,-3]" := by decide +kernel
    rw [hresolve, hall]
    simp only [if_pos hwritable, hname]

/-- The number `9007199254740993` is refused as a literal and admitted as a sum. -/
theorem odd_literal_is_refused :
    (lit 9007199254740993).expr.evaluateInt =
      .error (.nonIntegerSubscript (.lit (.int 9007199254740993))) ∧
    (add (lit 9007199254740992) (lit 1)).expr.evaluateInt = .ok 9007199254740993 := by
  have hrefused : (lit 9007199254740993).expr.evaluateInt = .error (refusal 9007199254740993) :=
    evaluateInt_of_not_isDouble (by decide +kernel)
  have hadmitted : refused? [9007199254740992, 1] = none := by decide +kernel
  constructor
  · rw [hrefused, refusal_of_bounded (by decide +kernel)]
  · rw [evaluateInt_expr]
    change admitted [9007199254740992, 1] _ = _
    rw [admitted, hadmitted]
    rfl

end Arithmetic

end Causality
