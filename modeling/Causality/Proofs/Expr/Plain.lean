import Causality.Equation.Expansion
import Causality.Model.Splitting
import Causality.Proofs.Fallible

/-!
# Plain expressions

An expression in scalar names has neither subscripts nor foreign nodes. Resolving leads to such an
expression, and there is nothing left to resolve in it.
-/

namespace Causality

namespace Expr

mutual

/-- No reference has subscripts and no node is foreign. -/
def Plain : Expr → Prop
  | lit _ => True
  | ref _ subscripts => subscripts = []
  | unary _ operand => Plain operand
  | binary _ left right => Plain left ∧ Plain right
  | call _ arguments => PlainAll arguments
  | cond condition whenTrue whenFalse => Plain condition ∧ Plain whenTrue ∧ Plain whenFalse
  | der operand => Plain operand
  | pre operand => Plain operand
  | foreign _ => False
termination_by structural e => e

def PlainAll : List Expr → Prop
  | [] => True
  | e :: rest => Plain e ∧ PlainAll rest
termination_by structural es => es

end

theorem element_plain {name : String} {indices : List Int} {r : Expr}
    (h : element name indices = .ok r) : r.Plain := by
  unfold element at h
  split at h
  · obtain rfl := Except.ok.inj h
    exact rfl
  · cases h

mutual

theorem resolve_plain {r : Expr} (e : Expr) (h : e.resolve = .ok r) : r.Plain := by
  match e with
  | lit value =>
    obtain rfl := Except.ok.inj h
    trivial
  | ref name subscripts =>
    unfold resolve at h
    split at h
    · next hempty =>
      obtain rfl := Except.ok.inj h
      simpa [Plain] using hempty
    · obtain ⟨indices, _, hr⟩ := bind_eq_ok.mp h
      exact element_plain hr
  | unary op operand =>
    simp only [resolve, bind_eq_ok, pure_eq_ok] at h
    obtain ⟨x, hx, rfl⟩ := h
    have hplain := resolve_plain operand hx
    exact hplain
  | binary op left right =>
    simp only [resolve, bind_eq_ok, pure_eq_ok] at h
    obtain ⟨x, hx, y, hy, rfl⟩ := h
    exact ⟨resolve_plain left hx, resolve_plain right hy⟩
  | call function arguments =>
    simp only [resolve, bind_eq_ok, pure_eq_ok] at h
    obtain ⟨xs, hxs, rfl⟩ := h
    exact resolveAll_plain arguments hxs
  | cond condition whenTrue whenFalse =>
    simp only [resolve, bind_eq_ok, pure_eq_ok] at h
    obtain ⟨x, hx, y, hy, z, hz, rfl⟩ := h
    exact ⟨resolve_plain condition hx, resolve_plain whenTrue hy, resolve_plain whenFalse hz⟩
  | der operand =>
    simp only [resolve, bind_eq_ok, pure_eq_ok] at h
    obtain ⟨x, hx, rfl⟩ := h
    have hplain := resolve_plain operand hx
    exact hplain
  | pre operand =>
    simp only [resolve, bind_eq_ok, pure_eq_ok] at h
    obtain ⟨x, hx, rfl⟩ := h
    have hplain := resolve_plain operand hx
    exact hplain
  | foreign kind =>
    cases h
termination_by structural e

theorem resolveAll_plain {rs : List Expr} (es : List Expr) (h : resolveAll es = .ok rs) :
    PlainAll rs := by
  match es with
  | [] =>
    obtain rfl := Except.ok.inj h
    trivial
  | e :: rest =>
    simp only [resolveAll, bind_eq_ok, pure_eq_ok] at h
    obtain ⟨x, hx, xs, hxs, rfl⟩ := h
    exact ⟨resolve_plain e hx, resolveAll_plain rest hxs⟩
termination_by structural es

end

mutual

theorem Plain.resolve_eq (e : Expr) (h : e.Plain) : e.resolve = .ok e := by
  match e with
  | lit value => rfl
  | ref name subscripts =>
    obtain rfl : subscripts = [] := h
    rfl
  | unary op operand =>
    rw [resolve, Plain.resolve_eq operand h]
    rfl
  | binary op left right =>
    rw [resolve, Plain.resolve_eq left h.1, Plain.resolve_eq right h.2]
    rfl
  | call function arguments =>
    rw [resolve, PlainAll.resolve_eq arguments h]
    rfl
  | cond condition whenTrue whenFalse =>
    rw [resolve, Plain.resolve_eq condition h.1, Plain.resolve_eq whenTrue h.2.1,
      Plain.resolve_eq whenFalse h.2.2]
    rfl
  | der operand =>
    rw [resolve, Plain.resolve_eq operand h]
    rfl
  | pre operand =>
    rw [resolve, Plain.resolve_eq operand h]
    rfl
  | foreign kind => exact absurd h id
termination_by structural e

theorem PlainAll.resolve_eq (es : List Expr) (h : PlainAll es) : resolveAll es = .ok es := by
  match es with
  | [] => rfl
  | e :: rest =>
    rw [resolveAll, Plain.resolve_eq e h.1, PlainAll.resolve_eq rest h.2]
    rfl
termination_by structural es

end

theorem scalar_plain {σ : Substitution} {e r : Expr} (h : e.scalar σ = .ok r) : r.Plain := by
  obtain ⟨x, _, hr⟩ := bind_eq_ok.mp h
  exact resolve_plain x hr

/-! ### Elements in the place of arrays -/

/-- What a name outside of reductions becomes. -/
def elementOr (arrays : List String) (indices : List Int) (name : String) : String :=
  if arrays.contains name then elementName name indices else name

theorem getD_elementSubstitution (arrays : List String) (indices : List Int) (name : String) :
    ((elementSubstitution arrays indices) name).getD (ref name []) =
      var (elementOr arrays indices name) := by
  unfold elementSubstitution elementOr
  split <;> rfl

theorem isReduction_of_length {function : Elementary} {es rs : List Expr}
    (h : rs.length = es.length) :
    isReduction (call function rs) = isReduction (call function es) := by
  match es, rs with
  | [], [] => rfl
  | [_], [_] => cases function <;> rfl
  | _ :: _ :: _, _ :: _ :: _ => cases function <;> rfl
  | [], _ :: _ => simp at h
  | _ :: _, [] => simp at h
  | [_], _ :: _ :: _ => simp at h
  | _ :: _ :: _, [_] => simp at h

/-- The expression with elements in the place of some names outside of reductions. -/
structure Elementwise (arrays : List String) (indices : List Int) (e r : Expr) : Prop where
  plain : r.Plain
  names : r.elementwiseNames = e.elementwiseNames.map (elementOr arrays indices)

structure ElementwiseAll (arrays : List String) (indices : List Int) (es rs : List Expr) :
    Prop where
  plain : PlainAll rs
  names : elementwiseNamesAll rs = (elementwiseNamesAll es).map (elementOr arrays indices)
  length : rs.length = es.length

variable {arrays : List String} {indices : List Int}

mutual

theorem Plain.elementwise {r : Expr} (e : Expr) (he : e.Plain)
    (h : e.substitute (elementSubstitution arrays indices) true = .ok r) :
    Elementwise arrays indices e r := by
  match e with
  | lit value =>
    obtain rfl := Except.ok.inj h
    exact ⟨trivial, rfl⟩
  | ref name subscripts =>
    obtain rfl : subscripts = [] := he
    rw [substitute, getD_elementSubstitution] at h
    obtain rfl := Except.ok.inj h
    exact ⟨rfl, rfl⟩
  | unary op operand =>
    simp only [substitute, bind_eq_ok, pure_eq_ok] at h
    obtain ⟨x, hx, rfl⟩ := h
    have hoperand := Plain.elementwise operand he hx
    exact ⟨hoperand.plain, hoperand.names⟩
  | binary op left right =>
    simp only [substitute, bind_eq_ok, pure_eq_ok] at h
    obtain ⟨x, hx, y, hy, rfl⟩ := h
    have hleft := Plain.elementwise left he.1 hx
    have hright := Plain.elementwise right he.2 hy
    refine ⟨⟨hleft.plain, hright.plain⟩, ?_⟩
    simp only [elementwiseNames, hleft.names, hright.names, List.map_append]
  | call function arguments =>
    unfold substitute at h
    by_cases hreduction : isReduction (call function arguments) = true
    · rw [if_pos ⟨rfl, hreduction⟩] at h
      obtain rfl := Except.ok.inj h
      refine ⟨he, ?_⟩
      simp only [elementwiseNames, hreduction, if_true, List.map_nil]
    · rw [if_neg (fun hboth => hreduction hboth.2), bind_eq_ok] at h
      obtain ⟨xs, hxs, hr⟩ := h
      obtain rfl := pure_eq_ok.mp hr
      have harguments := PlainAll.elementwise arguments he hxs
      refine ⟨harguments.plain, ?_⟩
      unfold elementwiseNames
      rw [isReduction_of_length harguments.length, if_neg hreduction, if_neg hreduction,
        harguments.names]
  | cond condition whenTrue whenFalse =>
    simp only [substitute, bind_eq_ok, pure_eq_ok] at h
    obtain ⟨x, hx, y, hy, z, hz, rfl⟩ := h
    have hcondition := Plain.elementwise condition he.1 hx
    have htrue := Plain.elementwise whenTrue he.2.1 hy
    have hfalse := Plain.elementwise whenFalse he.2.2 hz
    refine ⟨⟨hcondition.plain, htrue.plain, hfalse.plain⟩, ?_⟩
    simp only [elementwiseNames, hcondition.names, htrue.names, hfalse.names, List.map_append]
  | der operand =>
    simp only [substitute, bind_eq_ok, pure_eq_ok] at h
    obtain ⟨x, hx, rfl⟩ := h
    have hoperand := Plain.elementwise operand he hx
    exact ⟨hoperand.plain, hoperand.names⟩
  | pre operand =>
    simp only [substitute, bind_eq_ok, pure_eq_ok] at h
    obtain ⟨x, hx, rfl⟩ := h
    have hoperand := Plain.elementwise operand he hx
    exact ⟨hoperand.plain, hoperand.names⟩
  | foreign kind => exact absurd he id
termination_by structural e

theorem PlainAll.elementwise {rs : List Expr} (es : List Expr) (hes : PlainAll es)
    (h : substituteAll (elementSubstitution arrays indices) true es = .ok rs) :
    ElementwiseAll arrays indices es rs := by
  match es with
  | [] =>
    obtain rfl := Except.ok.inj h
    exact ⟨trivial, rfl, rfl⟩
  | e :: rest =>
    simp only [substituteAll, bind_eq_ok, pure_eq_ok] at h
    obtain ⟨x, hx, xs, hxs, rfl⟩ := h
    have hfirst := Plain.elementwise e hes.1 hx
    have hrest := PlainAll.elementwise rest hes.2 hxs
    refine ⟨⟨hfirst.plain, hrest.plain⟩, ?_, congrArg (· + 1) hrest.length⟩
    simp only [elementwiseNamesAll, hfirst.names, hrest.names, List.map_append]
termination_by structural es

end

end Expr

end Causality
