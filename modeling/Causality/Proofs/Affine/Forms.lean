import Causality.Affine
import Causality.Proofs.Fallible

/-!
# Affine forms

How an expression comes to its affine form, one case for each rule, and what the form and the root
inherit from the expressions they are computed from.
-/

namespace Causality

variable {u : Occurrence} {e a b c s : Expr} {f g k : Affine} {p : Expr → Prop}

namespace Expr

/-! ### Arithmetic -/

/-- A property that literals have and that passes between an arithmetic node and its operands. -/
structure Hereditary (p : Expr → Prop) : Prop where
  lit : ∀ value, p (lit value)
  neg : ∀ e, p (unary .neg e) ↔ p e
  binary : ∀ op a b, p (binary op a b) ↔ p a ∧ p b

theorem compute_eq_ok {op : BinaryOp} {operation : Number → Number → Except ConversionFault Number}
    (h : compute op operation a b = .ok c) :
    (∃ x y z, a.number? = some x ∧ b.number? = some y ∧ operation x y = .ok z ∧ c = lit z) ∨
      c = binary op a b := by
  unfold compute at h
  split at h
  · next x y hx hy =>
    cases hz : operation x y with
    | error cause =>
      rw [hz] at h
      cases h
    | ok z =>
      rw [hz] at h
      exact .inl ⟨x, y, z, hx, hy, hz, (Except.ok.inj h).symm⟩
  · exact .inr (Except.ok.inj h).symm

namespace Hereditary

theorem negation (hp : Hereditary p) (ha : p a) : p a.negation := by
  unfold Expr.negation
  split
  · split_ifs
    · exact (hp.neg _).mpr (hp.lit _)
    · exact hp.lit _
  · exact (hp.neg _).mp ha
  · exact (hp.neg _).mpr ha

theorem compute (hp : Hereditary p) {op : BinaryOp}
    {operation : Number → Number → Except ConversionFault Number} (ha : p a) (hb : p b)
    (h : Expr.compute op operation a b = .ok c) : p c := by
  obtain ⟨_, _, _, _, _, _, rfl⟩ | rfl := compute_eq_ok h
  · exact hp.lit _
  · exact (hp.binary op a b).mpr ⟨ha, hb⟩

theorem sum (hp : Hereditary p) (ha : p a) (hb : p b) (h : a.sum b = .ok c) : p c := by
  unfold Expr.sum at h
  split_ifs at h
  · exact Except.ok.inj h ▸ hb
  · exact Except.ok.inj h ▸ ha
  · exact hp.compute ha hb h

theorem difference (hp : Hereditary p) (ha : p a) (hb : p b) (h : a.difference b = .ok c) :
    p c := by
  unfold Expr.difference at h
  split_ifs at h
  · exact Except.ok.inj h ▸ ha
  · exact Except.ok.inj h ▸ hp.negation hb
  · exact hp.compute ha hb h

theorem product (hp : Hereditary p) (ha : p a) (hb : p b) (h : a.product b = .ok c) : p c := by
  unfold Expr.product at h
  split_ifs at h
  · exact Except.ok.inj h ▸ hp.lit _
  · exact Except.ok.inj h ▸ hb
  · exact Except.ok.inj h ▸ ha
  · exact hp.compute ha hb h

theorem quotient (hp : Hereditary p) (ha : p a) (hb : p b) : p (a.quotient b) := by
  unfold Expr.quotient
  split_ifs
  · exact ha
  · exact hp.lit _
  · exact hp.negation ha
  · exact (hp.binary .div a b).mpr ⟨ha, hb⟩

end Hereditary

/-! ### Unknowns that are mentioned -/

theorem mentions_binary {op : BinaryOp} : (binary op a b).mentions u = .ok true ↔
    a.mentions u = .ok true ∨ a.mentions u = .ok false ∧ b.mentions u = .ok true := by
  rw [mentions, bind_eq_ok]
  constructor
  · rintro ⟨found, hfound, h⟩
    cases found with
    | true => exact .inl hfound
    | false => exact .inr ⟨hfound, h⟩
  · rintro (ha | ⟨ha, hb⟩)
    · exact ⟨true, ha, rfl⟩
    · exact ⟨false, ha, hb⟩

/-! ### Forms -/

/-- The rules by which an expression has an affine form in the unknown. -/
inductive IsAffine (u : Occurrence) : Expr → Affine → Prop
  | free {e : Expr} (absent : e.mentions u = .ok false) : IsAffine u e ⟨zero, e⟩
  | self {e : Expr} (isUnknown : e.isOccurrence u = true) : IsAffine u e ⟨one, zero⟩
  | neg {e : Expr} {f : Affine} (mentioned : e.mentions u = .ok true) (operand : IsAffine u e f) :
    IsAffine u (unary .neg e) f.negation
  | add {a b : Expr} {f g k : Affine} (mentioned : (binary .add a b).mentions u = .ok true)
    (left : IsAffine u a f) (right : IsAffine u b g) (total : f.sum g = .ok k) :
    IsAffine u (binary .add a b) k
  | sub {a b : Expr} {f g k : Affine} (mentioned : (binary .sub a b).mentions u = .ok true)
    (left : IsAffine u a f) (right : IsAffine u b g) (total : f.difference g = .ok k) :
    IsAffine u (binary .sub a b) k
  | mulLeft {a b : Expr} {f k : Affine} (mentioned : a.mentions u = .ok true)
    (absent : b.mentions u = .ok false) (left : IsAffine u a f) (total : f.scaledRight b = .ok k) :
    IsAffine u (binary .mul a b) k
  | mulRight {a b : Expr} {g k : Affine} (absent : a.mentions u = .ok false)
    (mentioned : b.mentions u = .ok true) (right : IsAffine u b g)
    (total : Affine.scaledLeft a g = .ok k) : IsAffine u (binary .mul a b) k
  | div {a b : Expr} {f : Affine} (mentioned : a.mentions u = .ok true)
    (absent : b.mentions u = .ok false) (left : IsAffine u a f) :
    IsAffine u (binary .div a b) (f.dividedBy b)

theorem affineOr_eq_some {otherwise : Unit → Except Fault (Option Affine)}
    (h : affineOr u e otherwise = .ok (some f)) :
    IsAffine u e f ∨ e.mentions u = .ok true ∧ otherwise () = .ok (some f) := by
  obtain ⟨found, hfound, h⟩ := bind_eq_ok.mp h
  cases found with
  | false =>
    obtain rfl : ⟨zero, e⟩ = f := by simpa [pure_eq_ok] using h
    exact .inl (.free hfound)
  | true =>
    by_cases hunknown : e.isOccurrence u = true
    · obtain rfl : ⟨one, zero⟩ = f := by simpa [hunknown, pure_eq_ok] using h
      exact .inl (.self hunknown)
    · exact .inr ⟨hfound, by simpa [hunknown] using h⟩

theorem affineOr_none (h : affineOr u e (fun _ => return none) = .ok (some f)) :
    IsAffine u e f := by
  rcases affineOr_eq_some h with hf | ⟨_, hnone⟩
  · exact hf
  · cases hnone

theorem combine_eq_some {operation : Affine → Affine → Except Fault Affine} {x y : Option Affine}
    (h : Affine.combine operation x y = .ok (some k)) :
    ∃ f g, x = some f ∧ y = some g ∧ operation f g = .ok k := by
  match x, y with
  | some f, some g =>
    obtain ⟨k', hk', hkk'⟩ := map_eq_ok.mp h
    exact ⟨f, g, rfl, rfl, Option.some.inj hkk' ▸ hk'⟩
  | none, _ => cases h
  | some _, none => cases h

theorem isAffine_of_affine? (e : Expr) (f : Affine) (h : e.affine? u = .ok (some f)) :
    IsAffine u e f := by
  match e with
  | unary .neg operand =>
    rw [affine?] at h
    obtain hf | ⟨hmentioned, h⟩ := affineOr_eq_some h
    · exact hf
    · simp only [bind_eq_ok, pure_eq_ok, Option.map_eq_some_iff] at h
      obtain ⟨_, hoperand, f, rfl, rfl⟩ := h
      exact .neg hmentioned (isAffine_of_affine? operand f hoperand)
  | binary .add left right =>
    rw [affine?] at h
    obtain hf | ⟨hmentioned, h⟩ := affineOr_eq_some h
    · exact hf
    · simp only [bind_eq_ok] at h
      obtain ⟨_, hleft, _, hright, h⟩ := h
      obtain ⟨f, g, rfl, rfl, htotal⟩ := combine_eq_some h
      exact .add hmentioned (isAffine_of_affine? left f hleft) (isAffine_of_affine? right g hright)
        htotal
  | binary .sub left right =>
    rw [affine?] at h
    obtain hf | ⟨hmentioned, h⟩ := affineOr_eq_some h
    · exact hf
    · simp only [bind_eq_ok] at h
      obtain ⟨_, hleft, _, hright, h⟩ := h
      obtain ⟨f, g, rfl, rfl, htotal⟩ := combine_eq_some h
      exact .sub hmentioned (isAffine_of_affine? left f hleft) (isAffine_of_affine? right g hright)
        htotal
  | binary .mul left right =>
    rw [affine?] at h
    obtain hf | ⟨hmentioned, h⟩ := affineOr_eq_some h
    · exact hf
    · obtain ⟨found, hleft, h⟩ := bind_eq_ok.mp h
      cases found with
      | false =>
        have hright : right.mentions u = .ok true := by
          rcases mentions_binary.mp hmentioned with hl | ⟨_, hr⟩
          · cases hleft.symm.trans hl
          · exact hr
        obtain ⟨form, hform, h⟩ := bind_eq_ok.mp h
        cases form with
        | none => cases h
        | some g =>
          obtain ⟨k, hk, hkf⟩ := map_eq_ok.mp h
          exact .mulRight hleft hright (isAffine_of_affine? right g hform)
            (Option.some.inj hkf ▸ hk)
      | true =>
        obtain ⟨found, hright, h⟩ := bind_eq_ok.mp h
        cases found with
        | true => cases h
        | false =>
          obtain ⟨form, hform, h⟩ := bind_eq_ok.mp h
          cases form with
          | none => cases h
          | some g =>
            obtain ⟨k, hk, hkf⟩ := map_eq_ok.mp h
            exact .mulLeft hleft hright (isAffine_of_affine? left g hform)
              (Option.some.inj hkf ▸ hk)
  | binary .div left right =>
    rw [affine?] at h
    obtain hf | ⟨hmentioned, h⟩ := affineOr_eq_some h
    · exact hf
    · obtain ⟨found, hright, h⟩ := bind_eq_ok.mp h
      cases found with
      | true => cases h
      | false =>
        have hleft : left.mentions u = .ok true := by
          rcases mentions_binary.mp hmentioned with hl | ⟨_, hr⟩
          · exact hl
          · cases hright.symm.trans hr
        simp only [Bool.not_false, if_true, bind_eq_ok, pure_eq_ok, Option.map_eq_some_iff] at h
        obtain ⟨_, hform, f, rfl, rfl⟩ := h
        exact .div hleft hright (isAffine_of_affine? left f hform)
  | lit _ | ref _ _ | unary .not _ | call _ _ | cond _ _ _ | der _ | pre _ | foreign _ =>
    exact affineOr_none h
  | binary .pow _ _ | binary .lt _ _ | binary .le _ _ | binary .gt _ _ | binary .ge _ _
  | binary .eq _ _ | binary .ne _ _ | binary .and _ _ | binary .or _ _ =>
    exact affineOr_none h
termination_by structural e

end Expr

theorem Affine.sum_eq_ok : f.sum g = .ok k ↔
    f.coefficient.sum g.coefficient = .ok k.coefficient ∧
      f.constant.sum g.constant = .ok k.constant := by
  obtain ⟨coefficient, constant⟩ := k
  simp only [Affine.sum, bind_eq_ok, pure_eq_ok, Affine.mk.injEq]
  grind

theorem Affine.difference_eq_ok : f.difference g = .ok k ↔
    f.coefficient.difference g.coefficient = .ok k.coefficient ∧
      f.constant.difference g.constant = .ok k.constant := by
  obtain ⟨coefficient, constant⟩ := k
  simp only [Affine.difference, bind_eq_ok, pure_eq_ok, Affine.mk.injEq]
  grind

theorem Affine.scaledLeft_eq_ok : Affine.scaledLeft a f = .ok k ↔
    a.product f.coefficient = .ok k.coefficient ∧ a.product f.constant = .ok k.constant := by
  obtain ⟨coefficient, constant⟩ := k
  simp only [Affine.scaledLeft, bind_eq_ok, pure_eq_ok, Affine.mk.injEq]
  grind

theorem Affine.scaledRight_eq_ok : f.scaledRight a = .ok k ↔
    f.coefficient.product a = .ok k.coefficient ∧ f.constant.product a = .ok k.constant := by
  obtain ⟨coefficient, constant⟩ := k
  simp only [Affine.scaledRight, bind_eq_ok, pure_eq_ok, Affine.mk.injEq]
  grind

namespace Expr

theorem mentions_of_isOccurrence (h : e.isOccurrence u = true) : e.mentions u = .ok true := by
  cases e with
  | ref name subscripts => rw [mentions, if_pos h]
  | der operand => rw [mentions, if_pos h]
  | _ => cases h

/-! ### The search for a form follows the rules -/

theorem affineOr_of_absent {otherwise : Unit → Except Fault (Option Affine)}
    (h : e.mentions u = .ok false) : affineOr u e otherwise = .ok (some ⟨zero, e⟩) := by
  rw [affineOr, h]
  rfl

theorem affineOr_of_mentioned {otherwise : Unit → Except Fault (Option Affine)}
    (h : e.mentions u = .ok true) (hother : e.isOccurrence u = false) :
    affineOr u e otherwise = otherwise () := by
  rw [affineOr, h]
  simp [bind, Except.bind, hother]

theorem affine?_eq_affineOr (e : Expr) : ∃ otherwise, e.affine? u = affineOr u e otherwise := by
  unfold affine?
  split <;> exact ⟨_, rfl⟩

theorem IsAffine.affine?_eq (h : IsAffine u e f) : e.affine? u = .ok (some f) := by
  induction h with
  | @free e habsent =>
    obtain ⟨otherwise, heq⟩ := affine?_eq_affineOr (u := u) e
    rw [heq, affineOr_of_absent habsent]
  | @self e hunknown =>
    obtain ⟨otherwise, heq⟩ := affine?_eq_affineOr (u := u) e
    rw [heq, affineOr, mentions_of_isOccurrence hunknown]
    simp [bind, Except.bind, hunknown, pure, Except.pure]
  | @neg e _ hmentioned _ ih =>
    have hwhole : (unary .neg e).mentions u = .ok true := hmentioned
    rw [affine?, affineOr_of_mentioned hwhole rfl, ih]
    rfl
  | add hmentioned _ _ htotal ihleft ihright =>
    rw [affine?, affineOr_of_mentioned hmentioned rfl, ihleft, ihright]
    simp [bind, Except.bind, Affine.combine, htotal, Functor.map, Except.map]
  | sub hmentioned _ _ htotal ihleft ihright =>
    rw [affine?, affineOr_of_mentioned hmentioned rfl, ihleft, ihright]
    simp [bind, Except.bind, Affine.combine, htotal, Functor.map, Except.map]
  | @mulLeft a b _ _ hmentioned habsent _ htotal ih =>
    have hboth : (binary .mul a b).mentions u = .ok true := mentions_binary.mpr (.inl hmentioned)
    rw [affine?, affineOr_of_mentioned hboth rfl, hmentioned, habsent, ih]
    simp [bind, Except.bind, htotal, Functor.map, Except.map]
  | @mulRight a b _ _ habsent hmentioned _ htotal ih =>
    have hboth : (binary .mul a b).mentions u = .ok true :=
      mentions_binary.mpr (.inr ⟨habsent, hmentioned⟩)
    rw [affine?, affineOr_of_mentioned hboth rfl, habsent, ih]
    simp [bind, Except.bind, htotal, Functor.map, Except.map]
  | @div a b _ hmentioned habsent _ ih =>
    have hboth : (binary .div a b).mentions u = .ok true := mentions_binary.mpr (.inl hmentioned)
    rw [affine?, affineOr_of_mentioned hboth rfl, habsent, ih]
    rfl

namespace IsAffine

/-- What the parts of the form are computed from is free of the unknown. If `q` passes to operands
and gives `p` there, the parts have `p`. -/
theorem parts (h : IsAffine u e f) (hp : Hereditary p) {q : Expr → Prop}
    (hneg : ∀ e, q (unary .neg e) → q e) (hbinary : ∀ op a b, q (binary op a b) → q a ∧ q b)
    (hfree : ∀ e, q e → e.mentions u = .ok false → p e) (he : q e) :
    p f.coefficient ∧ p f.constant := by
  induction h with
  | free habsent => exact ⟨hp.lit _, hfree _ he habsent⟩
  | self => exact ⟨hp.lit _, hp.lit _⟩
  | neg _ _ ih =>
    obtain ⟨hcoefficient, hconstant⟩ := ih (hneg _ he)
    exact ⟨hp.negation hcoefficient, hp.negation hconstant⟩
  | add _ _ _ htotal ihleft ihright =>
    obtain ⟨hleft, hright⟩ := hbinary _ _ _ he
    obtain ⟨hcoefficient, hconstant⟩ := Affine.sum_eq_ok.mp htotal
    exact ⟨hp.sum (ihleft hleft).1 (ihright hright).1 hcoefficient,
      hp.sum (ihleft hleft).2 (ihright hright).2 hconstant⟩
  | sub _ _ _ htotal ihleft ihright =>
    obtain ⟨hleft, hright⟩ := hbinary _ _ _ he
    obtain ⟨hcoefficient, hconstant⟩ := Affine.difference_eq_ok.mp htotal
    exact ⟨hp.difference (ihleft hleft).1 (ihright hright).1 hcoefficient,
      hp.difference (ihleft hleft).2 (ihright hright).2 hconstant⟩
  | mulLeft _ habsent _ htotal ihleft =>
    obtain ⟨hleft, hright⟩ := hbinary _ _ _ he
    obtain ⟨hcoefficient, hconstant⟩ := Affine.scaledRight_eq_ok.mp htotal
    exact ⟨hp.product (ihleft hleft).1 (hfree _ hright habsent) hcoefficient,
      hp.product (ihleft hleft).2 (hfree _ hright habsent) hconstant⟩
  | mulRight habsent _ _ htotal ihright =>
    obtain ⟨hleft, hright⟩ := hbinary _ _ _ he
    obtain ⟨hcoefficient, hconstant⟩ := Affine.scaledLeft_eq_ok.mp htotal
    exact ⟨hp.product (hfree _ hleft habsent) (ihright hright).1 hcoefficient,
      hp.product (hfree _ hleft habsent) (ihright hright).2 hconstant⟩
  | div _ habsent _ ihleft =>
    obtain ⟨hleft, hright⟩ := hbinary _ _ _ he
    exact ⟨hp.quotient (ihleft hleft).1 (hfree _ hright habsent),
      hp.quotient (ihleft hleft).2 (hfree _ hright habsent)⟩

theorem inherits (h : IsAffine u e f) (hp : Hereditary p) (he : p e) :
    p f.coefficient ∧ p f.constant :=
  h.parts hp (fun e => (hp.neg e).mp) (fun op a b => (hp.binary op a b).mp) (fun _ he _ => he) he

/-- Only an expression that is free of the unknown is left whole. -/
theorem mentioned_or_free (h : IsAffine u e f) :
    e.mentions u = .ok true ∨ e.mentions u = .ok false ∧ f = ⟨zero, e⟩ := by
  cases h with
  | free habsent => exact .inr ⟨habsent, rfl⟩
  | self hunknown => exact .inl (mentions_of_isOccurrence hunknown)
  | neg hmentioned _ => exact .inl hmentioned
  | add hmentioned _ _ _ => exact .inl hmentioned
  | sub hmentioned _ _ _ => exact .inl hmentioned
  | mulLeft hmentioned _ _ _ => exact .inl (mentions_binary.mpr (.inl hmentioned))
  | mulRight habsent hmentioned _ _ => exact .inl (mentions_binary.mpr (.inr ⟨habsent, hmentioned⟩))
  | div hmentioned _ _ => exact .inl (mentions_binary.mpr (.inl hmentioned))

end IsAffine

theorem isNumber_zero : zero.isNumber 0 = true := by decide +kernel

theorem isNumber_one : one.isNumber 1 = true := by decide +kernel

theorem isNumber_one_zero : one.isNumber 0 = false := by decide +kernel

/-! ### Neutral operands -/

theorem zero_sum (b : Expr) : zero.sum b = .ok b := if_pos isNumber_zero

theorem sum_zero (h : a.isNumber 0 = false) : a.sum zero = .ok a := by
  rw [sum, if_neg (Bool.eq_false_iff.mp h), if_pos isNumber_zero]

theorem difference_zero (a : Expr) : a.difference zero = .ok a := if_pos isNumber_zero

theorem product_zero (a : Expr) : a.product zero = .ok zero := by
  rw [product, isNumber_zero, Bool.or_true, if_pos rfl]

theorem product_one (hzero : a.isNumber 0 = false) (hone : a.isNumber 1 = false) :
    a.product one = .ok a := by
  rw [product, hzero, isNumber_one_zero, Bool.or_false, if_neg Bool.false_ne_true,
    if_neg (Bool.eq_false_iff.mp hone), if_pos isNumber_one]

/-! ### Roots -/

/-- The numerator and the divisor of the root that the forms of both sides have. -/
structure IsRoot (u : Occurrence) (lhs rhs : Expr) (f g : Affine) (numerator divisor : Expr) :
    Prop where
  left : IsAffine u lhs f
  right : IsAffine u rhs g
  divisor_eq : f.coefficient.difference g.coefficient = .ok divisor
  nonzero : divisor.isNumber 0 = false
  numerator_eq : g.constant.difference f.constant = .ok numerator

namespace IsRoot

variable {lhs rhs numerator divisor : Expr}

theorem inherits (h : IsRoot u lhs rhs f g numerator divisor) (hp : Hereditary p) (hl : p lhs)
    (hr : p rhs) : p numerator ∧ p divisor := by
  obtain ⟨hf, hf'⟩ := h.left.inherits hp hl
  obtain ⟨hg, hg'⟩ := h.right.inherits hp hr
  exact ⟨hp.difference hg' hf' h.numerator_eq, hp.difference hf hg h.divisor_eq⟩

/-- If neither side mentions the unknown, the coefficients cancel. -/
theorem mentioned (h : IsRoot u lhs rhs f g numerator divisor) :
    lhs.mentions u = .ok true ∨ rhs.mentions u = .ok true := by
  rcases h.left.mentioned_or_free with hl | ⟨_, rfl⟩
  · exact .inl hl
  rcases h.right.mentioned_or_free with hr | ⟨_, rfl⟩
  · exact .inr hr
  have hcancel : zero = divisor := by
    have hdifference := h.divisor_eq
    rw [difference, if_pos isNumber_zero] at hdifference
    exact Except.ok.inj hdifference
  have hnonzero := h.nonzero
  rw [← hcancel, isNumber_zero] at hnonzero
  cases hnonzero

end IsRoot

theorem exists_root {lhs rhs : Expr} (h : solveFor u lhs rhs = .ok (some s)) :
    ∃ f g numerator divisor, IsRoot u lhs rhs f g numerator divisor ∧
      s = numerator.quotient divisor := by
  obtain ⟨left, hleft, h⟩ := bind_eq_ok.mp h
  obtain ⟨right, hright, h⟩ := bind_eq_ok.mp h
  match left, right with
  | some f, some g =>
    obtain ⟨divisor, hdivisor, h⟩ := bind_eq_ok.mp h
    by_cases hzero : divisor.isNumber 0 = true
    · rw [if_pos hzero] at h
      cases h
    rw [if_neg hzero] at h
    obtain ⟨numerator, hnumerator, h⟩ := bind_eq_ok.mp h
    exact ⟨f, g, numerator, divisor, ⟨isAffine_of_affine? lhs f hleft,
      isAffine_of_affine? rhs g hright, hdivisor, Bool.eq_false_iff.mpr hzero, hnumerator⟩,
      (Option.some.inj (Except.ok.inj h)).symm⟩
  | none, _ => cases h
  | some _, none => cases h

theorem IsRoot.solveFor_eq {lhs rhs numerator divisor : Expr}
    (h : IsRoot u lhs rhs f g numerator divisor) :
    solveFor u lhs rhs = .ok (some (numerator.quotient divisor)) := by
  rw [solveFor, h.left.affine?_eq, h.right.affine?_eq]
  simp [bind, Except.bind, Affine.root?, h.divisor_eq, h.nonzero, h.numerator_eq, pure, Except.pure]

end Expr

end Causality
