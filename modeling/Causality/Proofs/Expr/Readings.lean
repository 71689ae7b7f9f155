import Causality.Proofs.Expr.Plain

/-!
# Readings of expressions

What an expression says, element by element. Every name has a value, a derivative and left limits of
both. Operators may mean anything, and so may reductions, which can depend on all values at once. An
array outside of reductions is read as its element, which is what the expression says with the
element put in the place of the array.
-/

namespace Causality

/-- A value for each name, below derivatives and left limits or not. -/
abbrev Quantities (K : Type) := String → (inDer inPre : Bool) → K

/-- What expressions mean, in values of any kind: where an operation may fail, one of the values can
stand for that. -/
structure Reading (K : Type) where
  literal : Number → K
  unary : UnaryOp → K → K
  binary : BinaryOp → K → K → K
  call : Elementary → List K → K
  cond : K → K → K → K
  foreign : String → K
  /-- The one value of a reduction, below derivatives and left limits or not. -/
  reduction : Expr → (inDer inPre : Bool) → Quantities K → K

namespace Reading

variable {K : Type}

mutual

/-- The value of an expression in which `read` tells the name that is read for each name outside of
reductions. -/
def value (R : Reading K) (ρ : Quantities K) (read : String → String) (inDer inPre : Bool) :
    Expr → K
  | .lit value => R.literal value
  | .ref name _ => ρ (read name) inDer inPre
  | .unary op operand => R.unary op (R.value ρ read inDer inPre operand)
  | .binary op left right =>
    R.binary op (R.value ρ read inDer inPre left) (R.value ρ read inDer inPre right)
  | .call function arguments =>
    if Expr.isReduction (.call function arguments) then
      R.reduction (.call function arguments) inDer inPre ρ
    else R.call function (R.values ρ read inDer inPre arguments)
  | .cond condition whenTrue whenFalse =>
    R.cond (R.value ρ read inDer inPre condition) (R.value ρ read inDer inPre whenTrue)
      (R.value ρ read inDer inPre whenFalse)
  | .der operand => R.value ρ read true inPre operand
  | .pre operand => R.value ρ read inDer true operand
  | .foreign kind => R.foreign kind
termination_by structural e => e

def values (R : Reading K) (ρ : Quantities K) (read : String → String) (inDer inPre : Bool) :
    List Expr → List K
  | [] => []
  | e :: rest => R.value ρ read inDer inPre e :: R.values ρ read inDer inPre rest
termination_by structural es => es

end

variable {R : Reading K} {ρ : Quantities K} {read : String → String} {arrays : List String}
  {indices : List Int}

mutual

/-- To put elements in the place of arrays is to read the arrays as elements. -/
theorem value_substitute {r : Expr} (inDer inPre : Bool) (e : Expr) (he : e.Plain)
    (h : e.substitute (elementSubstitution arrays indices) true = .ok r)
    (hread : ∀ name ∈ e.elementwiseNames, read name = Expr.elementOr arrays indices name) :
    R.value ρ id inDer inPre r = R.value ρ read inDer inPre e := by
  match e with
  | .lit value =>
    obtain rfl := Except.ok.inj h
    rfl
  | .ref name subscripts =>
    obtain rfl : subscripts = [] := he
    rw [Expr.substitute, Expr.getD_elementSubstitution] at h
    obtain rfl := Except.ok.inj h
    have hname := hread name List.mem_cons_self
    rw [value, hname]
    rfl
  | .unary op operand =>
    simp only [Expr.substitute, bind_eq_ok, pure_eq_ok] at h
    obtain ⟨x, hx, rfl⟩ := h
    rw [value, value, value_substitute inDer inPre operand he hx hread]
  | .binary op left right =>
    simp only [Expr.substitute, bind_eq_ok, pure_eq_ok] at h
    obtain ⟨x, hx, y, hy, rfl⟩ := h
    rw [Expr.elementwiseNames, List.forall_mem_append] at hread
    rw [value, value, value_substitute inDer inPre left he.1 hx hread.1,
      value_substitute inDer inPre right he.2 hy hread.2]
  | .call function arguments =>
    unfold Expr.substitute at h
    by_cases hreduction : Expr.isReduction (.call function arguments) = true
    · -- A reduction stays whole, and no name inside is read elsewhere.
      rw [if_pos ⟨rfl, hreduction⟩] at h
      obtain rfl := Except.ok.inj h
      rw [value, value, if_pos hreduction, if_pos hreduction]
    · rw [if_neg (fun hboth => hreduction hboth.2), bind_eq_ok] at h
      obtain ⟨xs, hxs, hr⟩ := h
      obtain rfl := pure_eq_ok.mp hr
      have hlength := (Expr.PlainAll.elementwise arguments he hxs).length
      rw [Expr.elementwiseNames, if_neg hreduction] at hread
      rw [value, value, Expr.isReduction_of_length hlength, if_neg hreduction, if_neg hreduction,
        values_substitute inDer inPre arguments he hxs hread]
  | .cond condition whenTrue whenFalse =>
    simp only [Expr.substitute, bind_eq_ok, pure_eq_ok] at h
    obtain ⟨x, hx, y, hy, z, hz, rfl⟩ := h
    rw [Expr.elementwiseNames, List.forall_mem_append, List.forall_mem_append] at hread
    rw [value, value, value_substitute inDer inPre condition he.1 hx hread.1.1,
      value_substitute inDer inPre whenTrue he.2.1 hy hread.1.2,
      value_substitute inDer inPre whenFalse he.2.2 hz hread.2]
  | .der operand =>
    simp only [Expr.substitute, bind_eq_ok, pure_eq_ok] at h
    obtain ⟨x, hx, rfl⟩ := h
    rw [value, value, value_substitute true inPre operand he hx hread]
  | .pre operand =>
    simp only [Expr.substitute, bind_eq_ok, pure_eq_ok] at h
    obtain ⟨x, hx, rfl⟩ := h
    rw [value, value, value_substitute inDer true operand he hx hread]
  | .foreign kind => exact absurd he id
termination_by structural e

theorem values_substitute {rs : List Expr} (inDer inPre : Bool) (es : List Expr)
    (hes : Expr.PlainAll es)
    (h : Expr.substituteAll (elementSubstitution arrays indices) true es = .ok rs)
    (hread : ∀ name ∈ Expr.elementwiseNamesAll es,
      read name = Expr.elementOr arrays indices name) :
    R.values ρ id inDer inPre rs = R.values ρ read inDer inPre es := by
  match es with
  | [] =>
    obtain rfl := Except.ok.inj h
    rfl
  | e :: rest =>
    simp only [Expr.substituteAll, bind_eq_ok, pure_eq_ok] at h
    obtain ⟨x, hx, xs, hxs, rfl⟩ := h
    rw [Expr.elementwiseNamesAll, List.forall_mem_append] at hread
    rw [values, values, value_substitute inDer inPre e hes.1 hx hread.1,
      values_substitute inDer inPre rest hes.2 hxs hread.2]
termination_by structural es

end

def Holds (R : Reading K) (ρ : Quantities K) (read : String → String) : Equation → Prop
  | .simple lhs rhs => R.value ρ read false false lhs = R.value ρ read false false rhs
  | _ => False

end Reading

end Causality
