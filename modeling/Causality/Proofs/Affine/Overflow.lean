import Causality.Proofs.Affine.Forms
import Causality.Proofs.Expr.Sites
import Causality.Proofs.Failure

/-!
# Numbers that are too large to fold

Solving an equation computes with the numbers in it. The one thing that can go wrong is that an
integer meets a double and rounds beyond the largest one. Each integer that is computed is bounded
by the product of the integers that it is computed from.
-/

namespace Causality

variable {u : Occurrence} {a b c e lhs rhs : Expr} {f g k : Affine} {m n : Nat}

/-- From this integer on there is no double. -/
def doubleBound : Nat := Decimal.twos 1024 - Decimal.twos 970

/-- An integer is too large for a double, and is bounded by `n`. -/
structure Fault.Overflows (n : Nat) (fault : Fault) : Prop where
  eq : fault = .conversion .tooLarge
  large : doubleBound ≤ n

theorem Fault.Overflows.mono {fault : Fault} (h : fault.Overflows m) (hmn : m ≤ n) :
    fault.Overflows n :=
  ⟨h.eq, Nat.le_trans h.large hmn⟩

/-! ### Operations on numbers -/

/-- The operation on integers stays within the product of bounds that are not too small. -/
def StaysWithin (exact : Int → Int → Int) : Prop :=
  ∀ i j : Int, ∀ m n : Nat, 2 ≤ m → 2 ≤ n → i.natAbs ≤ m → j.natAbs ≤ n →
    (exact i j).natAbs ≤ m * n

theorem staysWithin_add : StaysWithin (· + ·) := by
  intro i j m n hm hn hi hj
  have hsum : m + n ≤ m * n := Nat.add_le_mul hm hn
  dsimp only
  omega

theorem staysWithin_sub : StaysWithin (· - ·) := by
  intro i j m n hm hn hi hj
  have hsum : m + n ≤ m * n := Nat.add_le_mul hm hn
  dsimp only
  omega

theorem staysWithin_mul : StaysWithin (· * ·) := by
  intro i j m n _ _ hi hj
  rw [Int.natAbs_mul]
  exact Nat.mul_le_mul hi hj

theorem doubleOf_eq_error {i : Int} {cause : ConversionFault} (h : doubleOf i = .error cause) :
    cause = .tooLarge ∧ doubleBound ≤ i.natAbs := by
  unfold doubleOf at h
  split_ifs at h with hbeyond
  exact ⟨(Except.error.inj h).symm, of_decide_eq_true hbeyond⟩

theorem Number.combine_eq_error {exact : Int → Int → Int} {rounded : Float → Float → Float}
    {x y : Number} {cause : ConversionFault} (h : combine exact rounded x y = .error cause) :
    cause = .tooLarge ∧
      ∃ i, (x.operand = .inl i ∨ y.operand = .inl i) ∧ doubleBound ≤ i.natAbs := by
  unfold combine at h
  split at h
  · cases h
  · next i _ hi _ =>
    obtain hfault | ⟨_, _, h⟩ := bind_eq_error.mp h
    · obtain ⟨hcause, hlarge⟩ := doubleOf_eq_error hfault
      exact ⟨hcause, i, .inl hi, hlarge⟩
    · cases h
  · next _ i _ hi =>
    obtain hfault | ⟨_, _, h⟩ := bind_eq_error.mp h
    · obtain ⟨hcause, hlarge⟩ := doubleOf_eq_error hfault
      exact ⟨hcause, i, .inr hi, hlarge⟩
    · cases h
  · cases h

theorem Number.combine_eq_ok {exact : Int → Int → Int} {rounded : Float → Float → Float}
    {x y z : Number} (h : combine exact rounded x y = .ok z) :
    (∃ i j, x.operand = .inl i ∧ y.operand = .inl j ∧ z = .int (exact i j)) ∨
      ∃ r, z = .real r := by
  unfold combine at h
  split at h
  · next i j hi hj => exact .inl ⟨i, j, hi, hj, (Except.ok.inj h).symm⟩
  · obtain ⟨_, _, h⟩ := bind_eq_ok.mp h
    exact .inr ⟨_, (Except.ok.inj h).symm⟩
  · obtain ⟨_, _, h⟩ := bind_eq_ok.mp h
    exact .inr ⟨_, (Except.ok.inj h).symm⟩
  · exact .inr ⟨_, (Except.ok.inj h).symm⟩

namespace Expr

/-- The product of the integers in an arithmetic expression, where none counts less than two. -/
def magnitude : Expr → Nat
  | lit (.int i) => max 2 i.natAbs
  | unary .neg operand => magnitude operand
  | binary _ left right => magnitude left * magnitude right
  | _ => 1

theorem one_le_magnitude (e : Expr) : 1 ≤ e.magnitude := by
  match e with
  | lit (.int i) =>
    rw [magnitude]
    omega
  | unary .neg operand => exact one_le_magnitude operand
  | binary _ left right => exact Nat.mul_pos (one_le_magnitude left) (one_le_magnitude right)
  | lit (.real _) | lit (.bool _) | unary .not _ | ref _ _ | call _ _ | cond _ _ _ | der _ | pre _
  | foreign _ => exact Nat.le_refl 1
termination_by structural e

theorem le_mul_left (a b : Expr) : a.magnitude ≤ a.magnitude * b.magnitude :=
  Nat.le_mul_of_pos_right _ (one_le_magnitude b)

theorem le_mul_right (a b : Expr) : b.magnitude ≤ a.magnitude * b.magnitude :=
  Nat.le_mul_of_pos_left _ (one_le_magnitude a)

theorem magnitude_of_number? {x : Number} {i : Int} (h : e.number? = some x)
    (hx : x.operand = .inl i) : 2 ≤ e.magnitude ∧ i.natAbs ≤ e.magnitude := by
  match e with
  | lit (.int j) =>
    obtain rfl : .int j = x := by simpa [number?, Number.isBool] using h
    obtain rfl : j = i := by simpa [Number.operand] using hx
    rw [magnitude]
    omega
  | lit (.real r) =>
    obtain rfl : .real r = x := by simpa [number?, Number.isBool] using h
    cases hx
  | lit (.bool _) => cases h

/-! ### Folding -/

theorem magnitude_negation (e : Expr) : e.negation.magnitude ≤ e.magnitude := by
  match e with
  | lit (.int i) => simp [negation, Number.isBool, Number.neg, Number.operand, magnitude]
  | unary .neg operand => exact Nat.le_refl _
  | lit (.real _) | lit (.bool _) | unary .not _ | binary _ _ _ | ref _ _ | call _ _ | cond _ _ _
  | der _ | pre _ | foreign _ => exact Nat.le_refl _

section Compute

variable {op : BinaryOp} {exact : Int → Int → Int} {rounded : Float → Float → Float}

theorem magnitude_compute (hexact : StaysWithin exact)
    (h : compute op (Number.combine exact rounded) a b = .ok c) :
    c.magnitude ≤ a.magnitude * b.magnitude := by
  obtain ⟨x, y, z, hx, hy, hz, rfl⟩ | rfl := compute_eq_ok h
  · obtain ⟨i, j, hi, hj, rfl⟩ | ⟨r, rfl⟩ := Number.combine_eq_ok hz
    · obtain ⟨ha, hia⟩ := magnitude_of_number? hx hi
      obtain ⟨hb, hjb⟩ := magnitude_of_number? hy hj
      have hij := hexact i j _ _ ha hb hia hjb
      have hle := le_mul_left a b
      rw [magnitude]
      omega
    · exact Nat.mul_pos (one_le_magnitude a) (one_le_magnitude b)
  · exact Nat.le_refl _

theorem compute_overflows : FailsOnly (Fault.Overflows (a.magnitude * b.magnitude))
    (compute op (Number.combine exact rounded) a b) := by
  constructor
  intro fault h
  unfold compute at h
  split at h
  · next x y hx hy =>
    cases hxy : Number.combine exact rounded x y with
    | ok z =>
      rw [hxy] at h
      cases h
    | error cause =>
      rw [hxy] at h
      obtain ⟨rfl, i, hi, hlarge⟩ := Number.combine_eq_error hxy
      refine ⟨(Except.error.inj h).symm, Nat.le_trans hlarge ?_⟩
      rcases hi with hi | hi
      · exact Nat.le_trans (magnitude_of_number? hx hi).2 (le_mul_left a b)
      · exact Nat.le_trans (magnitude_of_number? hy hi).2 (le_mul_right a b)
  · cases h

end Compute

theorem magnitude_sum (h : a.sum b = .ok c) : c.magnitude ≤ a.magnitude * b.magnitude := by
  unfold sum at h
  split_ifs at h
  · obtain rfl := Except.ok.inj h
    exact le_mul_right a b
  · obtain rfl := Except.ok.inj h
    exact le_mul_left a b
  · exact magnitude_compute staysWithin_add h

theorem sum_overflows (a b : Expr) :
    FailsOnly (Fault.Overflows (a.magnitude * b.magnitude)) (a.sum b) := by
  unfold sum
  split_ifs
  · exact .ok _
  · exact .ok _
  · exact compute_overflows

theorem magnitude_difference (h : a.difference b = .ok c) :
    c.magnitude ≤ a.magnitude * b.magnitude := by
  unfold difference at h
  split_ifs at h
  · obtain rfl := Except.ok.inj h
    exact le_mul_left a b
  · obtain rfl := Except.ok.inj h
    exact Nat.le_trans (magnitude_negation b) (le_mul_right a b)
  · exact magnitude_compute staysWithin_sub h

theorem difference_overflows (a b : Expr) :
    FailsOnly (Fault.Overflows (a.magnitude * b.magnitude)) (a.difference b) := by
  unfold difference
  split_ifs
  · exact .ok _
  · exact .ok _
  · exact compute_overflows

theorem magnitude_product (h : a.product b = .ok c) :
    c.magnitude ≤ a.magnitude * b.magnitude := by
  unfold product at h
  split_ifs at h
  · obtain rfl := Except.ok.inj h
    exact Nat.mul_pos (one_le_magnitude a) (one_le_magnitude b)
  · obtain rfl := Except.ok.inj h
    exact le_mul_right a b
  · obtain rfl := Except.ok.inj h
    exact le_mul_left a b
  · exact magnitude_compute staysWithin_mul h

theorem product_overflows (a b : Expr) :
    FailsOnly (Fault.Overflows (a.magnitude * b.magnitude)) (a.product b) := by
  unfold product
  split_ifs
  · exact .ok _
  · exact .ok _
  · exact .ok _
  · exact compute_overflows

theorem magnitude_quotient (a b : Expr) :
    (a.quotient b).magnitude ≤ a.magnitude * b.magnitude := by
  unfold quotient
  split_ifs
  · exact le_mul_left a b
  · exact Nat.mul_pos (one_le_magnitude a) (one_le_magnitude b)
  · exact Nat.le_trans (magnitude_negation a) (le_mul_left a b)
  · exact Nat.le_refl _

end Expr

/-! ### Forms -/

namespace Affine

/-- The integers in both parts are bounded. -/
structure Within (f : Affine) (n : Nat) : Prop where
  coefficient : f.coefficient.magnitude ≤ n
  constant : f.constant.magnitude ≤ n

theorem Within.mul (hf : f.Within m) (hg : g.Within n) :
    f.coefficient.magnitude * g.coefficient.magnitude ≤ m * n ∧
      f.constant.magnitude * g.constant.magnitude ≤ m * n :=
  ⟨Nat.mul_le_mul hf.coefficient hg.coefficient, Nat.mul_le_mul hf.constant hg.constant⟩

theorem Within.sum (hf : f.Within m) (hg : g.Within n) (h : f.sum g = .ok k) :
    k.Within (m * n) := by
  obtain ⟨hcoefficient, hconstant⟩ := sum_eq_ok.mp h
  obtain ⟨hle, hle'⟩ := hf.mul hg
  exact ⟨Nat.le_trans (Expr.magnitude_sum hcoefficient) hle,
    Nat.le_trans (Expr.magnitude_sum hconstant) hle'⟩

theorem Within.difference (hf : f.Within m) (hg : g.Within n) (h : f.difference g = .ok k) :
    k.Within (m * n) := by
  obtain ⟨hcoefficient, hconstant⟩ := difference_eq_ok.mp h
  obtain ⟨hle, hle'⟩ := hf.mul hg
  exact ⟨Nat.le_trans (Expr.magnitude_difference hcoefficient) hle,
    Nat.le_trans (Expr.magnitude_difference hconstant) hle'⟩

theorem failsOnly_parts {P : Fault → Prop} {x y : Except Fault Expr} (hx : FailsOnly P x)
    (hy : FailsOnly P y) : FailsOnly P (do return Affine.mk (← x) (← y)) := by
  apply hx.bind
  intro _ _
  apply hy.bind
  intro _ _
  exact .pure _

theorem Within.sum_overflows (hf : f.Within m) (hg : g.Within n) :
    FailsOnly (Fault.Overflows (m * n)) (f.sum g) := by
  obtain ⟨hle, hle'⟩ := hf.mul hg
  apply failsOnly_parts
  · exact (Expr.sum_overflows _ _).imp fun _ h => h.mono hle
  · exact (Expr.sum_overflows _ _).imp fun _ h => h.mono hle'

theorem Within.difference_overflows (hf : f.Within m) (hg : g.Within n) :
    FailsOnly (Fault.Overflows (m * n)) (f.difference g) := by
  obtain ⟨hle, hle'⟩ := hf.mul hg
  apply failsOnly_parts
  · exact (Expr.difference_overflows _ _).imp fun _ h => h.mono hle
  · exact (Expr.difference_overflows _ _).imp fun _ h => h.mono hle'

theorem Within.scaledLeft (hf : f.Within n) (h : Affine.scaledLeft a f = .ok k) :
    k.Within (a.magnitude * n) := by
  obtain ⟨hcoefficient, hconstant⟩ := scaledLeft_eq_ok.mp h
  constructor
  · exact Nat.le_trans (Expr.magnitude_product hcoefficient) (Nat.mul_le_mul_left _ hf.coefficient)
  · exact Nat.le_trans (Expr.magnitude_product hconstant) (Nat.mul_le_mul_left _ hf.constant)

theorem Within.scaledLeft_overflows (hf : f.Within n) :
    FailsOnly (Fault.Overflows (a.magnitude * n)) (Affine.scaledLeft a f) := by
  apply failsOnly_parts
  · exact (Expr.product_overflows _ _).imp fun _ h => h.mono (Nat.mul_le_mul_left _ hf.coefficient)
  · exact (Expr.product_overflows _ _).imp fun _ h => h.mono (Nat.mul_le_mul_left _ hf.constant)

theorem Within.scaledRight (hf : f.Within n) (h : f.scaledRight a = .ok k) :
    k.Within (n * a.magnitude) := by
  obtain ⟨hcoefficient, hconstant⟩ := scaledRight_eq_ok.mp h
  constructor
  · exact Nat.le_trans (Expr.magnitude_product hcoefficient) (Nat.mul_le_mul_right _ hf.coefficient)
  · exact Nat.le_trans (Expr.magnitude_product hconstant) (Nat.mul_le_mul_right _ hf.constant)

theorem Within.scaledRight_overflows (hf : f.Within n) :
    FailsOnly (Fault.Overflows (n * a.magnitude)) (f.scaledRight a) := by
  apply failsOnly_parts
  · exact (Expr.product_overflows _ _).imp fun _ h => h.mono (Nat.mul_le_mul_right _ hf.coefficient)
  · exact (Expr.product_overflows _ _).imp fun _ h => h.mono (Nat.mul_le_mul_right _ hf.constant)

theorem Within.dividedBy (hf : f.Within n) : (f.dividedBy a).Within (n * a.magnitude) where
  coefficient :=
    Nat.le_trans (Expr.magnitude_quotient _ _) (Nat.mul_le_mul_right _ hf.coefficient)
  constant := Nat.le_trans (Expr.magnitude_quotient _ _) (Nat.mul_le_mul_right _ hf.constant)

end Affine

namespace Expr

theorem IsAffine.within (h : IsAffine u e f) : f.Within e.magnitude := by
  induction h with
  | @free e _ => exact ⟨one_le_magnitude e, Nat.le_refl _⟩
  | @self e _ => exact ⟨one_le_magnitude e, one_le_magnitude e⟩
  | neg _ _ ih =>
    exact ⟨Nat.le_trans (magnitude_negation _) ih.coefficient,
      Nat.le_trans (magnitude_negation _) ih.constant⟩
  | add _ _ _ htotal ihleft ihright => exact ihleft.sum ihright htotal
  | sub _ _ _ htotal ihleft ihright => exact ihleft.difference ihright htotal
  | mulLeft _ _ _ htotal ih => exact ih.scaledRight htotal
  | mulRight _ _ _ htotal ih => exact ih.scaledLeft htotal
  | div _ _ _ ih => exact ih.dividedBy

/-! ### The search for a form -/

mutual

/-- The search for an unknown fails at foreign nodes only. -/
theorem Known.exists_mentions (e : Expr) (he : e.Known) : ∃ found, e.mentions u = .ok found := by
  match e with
  | lit value => exact ⟨false, rfl⟩
  | ref name subscripts =>
    rw [mentions]
    split_ifs
    · exact ⟨true, rfl⟩
    · exact KnownAll.exists_mentions subscripts he
  | unary op operand => exact Known.exists_mentions operand he
  | binary op left right =>
    obtain ⟨found, hleft⟩ := Known.exists_mentions left he.1
    obtain ⟨found', hright⟩ := Known.exists_mentions right he.2
    rw [mentions, hleft, hright]
    cases found <;> exact ⟨_, rfl⟩
  | call function arguments => exact KnownAll.exists_mentions arguments he
  | cond condition whenTrue whenFalse =>
    obtain ⟨found, hcondition⟩ := Known.exists_mentions condition he.1
    obtain ⟨found', htrue⟩ := Known.exists_mentions whenTrue he.2.1
    obtain ⟨found'', hfalse⟩ := Known.exists_mentions whenFalse he.2.2
    rw [mentions, hcondition, htrue, hfalse]
    cases found <;> cases found' <;> exact ⟨_, rfl⟩
  | der operand =>
    rw [mentions]
    split_ifs
    · exact ⟨true, rfl⟩
    · exact Known.exists_mentions operand he
    · exact ⟨false, rfl⟩
  | pre operand => exact ⟨false, rfl⟩
  | foreign kind => exact he.elim
termination_by structural e

theorem KnownAll.exists_mentions (es : List Expr) (hes : KnownAll es) :
    ∃ found, mentionsAny u es = .ok found := by
  match es with
  | [] => exact ⟨false, rfl⟩
  | e :: rest =>
    obtain ⟨found, he⟩ := Known.exists_mentions e hes.1
    obtain ⟨found', hrest⟩ := KnownAll.exists_mentions rest hes.2
    rw [mentionsAny, he, hrest]
    cases found <;> exact ⟨_, rfl⟩
termination_by structural es

end

variable {P : Fault → Prop}

theorem failsOnly_affineOr {otherwise : Unit → Except Fault (Option Affine)} (he : e.Known)
    (h : FailsOnly P (otherwise ())) : FailsOnly P (affineOr u e otherwise) := by
  obtain ⟨found, hfound⟩ := Known.exists_mentions (u := u) e he
  rw [affineOr, hfound]
  cases found with
  | false => exact .ok _
  | true =>
    by_cases hunknown : e.isOccurrence u = true
    · simpa [bind, Except.bind, hunknown] using FailsOnly.pure _
    · simpa [bind, Except.bind, hunknown] using h

theorem failsOnly_combine {operation : Affine → Affine → Except Fault Affine}
    {x y : Option Affine} (h : ∀ f g, x = some f → y = some g → FailsOnly P (operation f g)) :
    FailsOnly P (Affine.combine operation x y) := by
  match x, y with
  | some f, some g => exact (h f g rfl rfl).map
  | none, _ => exact .ok _
  | some _, none => exact .ok _

theorem failsOnly_mapM {operation : Affine → Except Fault Affine} {x : Option Affine}
    (h : ∀ f, x = some f → FailsOnly P (operation f)) : FailsOnly P (x.mapM operation) := by
  cases x with
  | none => exact .pure _
  | some f => exact (h f rfl).map

theorem failsOnly_forms {operation : Affine → Affine → Except Fault Affine}
    (ha : FailsOnly P (a.affine? u)) (hb : FailsOnly P (b.affine? u))
    (h : ∀ f g, IsAffine u a f → IsAffine u b g → FailsOnly P (operation f g)) :
    FailsOnly P (do
      let f ← a.affine? u
      let g ← b.affine? u
      Affine.combine operation f g) := by
  apply ha.bind
  intro x hx
  apply hb.bind
  intro y hy
  apply failsOnly_combine
  rintro f g rfl rfl
  exact h f g (isAffine_of_affine? a f hx) (isAffine_of_affine? b g hy)

theorem Known.affine?_overflows (e : Expr) (he : e.Known) :
    FailsOnly (Fault.Overflows e.magnitude) (e.affine? u) := by
  match e with
  | unary .neg operand =>
    rw [affine?]
    apply failsOnly_affineOr he
    apply (Known.affine?_overflows operand he).bind
    intro _ _
    exact .pure _
  | binary .add left right =>
    rw [affine?]
    apply failsOnly_affineOr he
    apply failsOnly_forms
    · exact (Known.affine?_overflows left he.1).imp fun _ h => h.mono (le_mul_left left right)
    · exact (Known.affine?_overflows right he.2).imp fun _ h => h.mono (le_mul_right left right)
    · exact fun f g hf hg => hf.within.sum_overflows hg.within
  | binary .sub left right =>
    rw [affine?]
    apply failsOnly_affineOr he
    apply failsOnly_forms
    · exact (Known.affine?_overflows left he.1).imp fun _ h => h.mono (le_mul_left left right)
    · exact (Known.affine?_overflows right he.2).imp fun _ h => h.mono (le_mul_right left right)
    · exact fun f g hf hg => hf.within.difference_overflows hg.within
  | binary .mul left right =>
    rw [affine?]
    apply failsOnly_affineOr he
    have hleft := (Known.affine?_overflows left he.1).imp fun _ h =>
      h.mono (le_mul_left left right)
    have hright := (Known.affine?_overflows right he.2).imp fun _ h =>
      h.mono (le_mul_right left right)
    obtain ⟨found, hfound⟩ := Known.exists_mentions (u := u) left he.1
    obtain ⟨found', hfound'⟩ := Known.exists_mentions (u := u) right he.2
    rw [hfound, hfound']
    cases found with
    | false =>
      apply hright.bind
      intro x hx
      apply failsOnly_mapM
      rintro f rfl
      exact (isAffine_of_affine? right f hx).within.scaledLeft_overflows
    | true =>
      cases found' with
      | false =>
        apply hleft.bind
        intro x hx
        apply failsOnly_mapM
        rintro f rfl
        exact (isAffine_of_affine? left f hx).within.scaledRight_overflows
      | true => exact .pure _
  | binary .div left right =>
    rw [affine?]
    apply failsOnly_affineOr he
    have hleft := (Known.affine?_overflows left he.1).imp fun _ h =>
      h.mono (le_mul_left left right)
    obtain ⟨found, hfound⟩ := Known.exists_mentions (u := u) right he.2
    rw [hfound]
    cases found with
    | false =>
      apply hleft.bind
      intro _ _
      exact .pure _
    | true => exact .pure _
  | lit _ | ref _ _ | unary .not _ | call _ _ | cond _ _ _ | der _ | pre _ | foreign _
  | binary .pow _ _ | binary .lt _ _ | binary .le _ _ | binary .gt _ _ | binary .ge _ _
  | binary .eq _ _ | binary .ne _ _ | binary .and _ _ | binary .or _ _ =>
    rw [affine?]
    exact failsOnly_affineOr he (.pure _)
    all_goals simp
termination_by structural e

end Expr

theorem Affine.Within.root?_overflows (hf : f.Within m) (hg : g.Within n) :
    FailsOnly (Fault.Overflows (m * n)) (f.root? g) := by
  obtain ⟨hle, hle'⟩ := hf.mul hg
  apply ((Expr.difference_overflows _ _).imp fun _ h => h.mono hle).bind
  intro divisor _
  split_ifs
  · exact .pure _
  · rw [Nat.mul_comm] at hle'
    apply ((Expr.difference_overflows _ _).imp fun _ h => h.mono hle').bind
    intro _ _
    exact .pure _

/-- Solving an equation fails only if an integer in it, or one computed from such, is too large for
a double. -/
theorem solveFor_overflows (hl : lhs.Known) (hr : rhs.Known) :
    FailsOnly (Fault.Overflows (lhs.magnitude * rhs.magnitude)) (solveFor u lhs rhs) := by
  have hleft := (Expr.Known.affine?_overflows (u := u) lhs hl).imp fun _ h =>
    h.mono (Expr.le_mul_left lhs rhs)
  have hright := (Expr.Known.affine?_overflows (u := u) rhs hr).imp fun _ h =>
    h.mono (Expr.le_mul_right lhs rhs)
  apply hleft.bind
  intro x hx
  apply hright.bind
  intro y hy
  match x, y with
  | some f, some g =>
    exact (Expr.isAffine_of_affine? lhs f hx).within.root?_overflows
      (Expr.isAffine_of_affine? rhs g hy).within
  | none, _ => exact .pure _
  | some _, none => exact .pure _

end Causality
