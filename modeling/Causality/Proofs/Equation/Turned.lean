import Causality.Proofs.Equation.NormalForm

/-!
# Equations turned around

The sides of a simple equation can change places. Both equations expand to the same ones, turned
around, except that a scalar which is equated with arrays is looked for on the left side only.
-/

namespace Causality

def Equation.turn : Equation → Equation
  | .simple lhs rhs => .simple rhs lhs
  | e => e

/-- The equation as it is, or with its sides exchanged. -/
inductive Equation.Turns : Equation → Equation → Prop where
  | same (e : Equation) : Turns e e
  | turn (lhs rhs : Expr) : Turns (.simple lhs rhs) (.simple rhs lhs)

/-- The same label, and the same equation in one direction or the other. -/
structure Labelled.Turns (l l' : Labelled) : Prop where
  label : l'.label = l.label
  equation : l.equation.Turns l'.equation

theorem Equation.turn_turn (e : Equation) : e.turn.turn = e := by
  cases e <;> rfl

theorem Equation.turns_turn (e : Equation) : e.Turns e.turn := by
  cases e with
  | simple lhs rhs => exact .turn lhs rhs
  | loop | choice => exact .same _

theorem Equation.Turns.mem_exprs {e e' : Equation} (h : e.Turns e') {x : Expr} :
    x ∈ e'.exprs ↔ x ∈ e.exprs := by
  cases h with
  | same => exact Iff.rfl
  | turn lhs rhs => simp [Equation.exprs, or_comm]

theorem Equation.Turns.isWritable_eq {e e' : Equation} (h : e.Turns e') :
    e'.isWritable = e.isWritable := by
  cases h with
  | same => rfl
  | turn lhs rhs => exact Bool.and_comm _ _

theorem Equation.Turns.exists_residuals {e e' : Equation} (h : e.Turns e') {rs : List Residual}
    (hrs : e.residuals = .ok rs) : ∃ rs', e'.residuals = .ok rs' := by
  cases h with
  | same => exact ⟨rs, hrs⟩
  | turn lhs rhs => exact ⟨_, rfl⟩

/-! ### Arrays -/

variable {vars : List Variable} {label : String} {lhs rhs : Expr} {ls : List Labelled}

theorem mem_arraysOf_turn {p : String × List Whole} :
    p ∈ arraysOf vars rhs lhs ↔ p ∈ arraysOf vars lhs rhs := by
  rw [mem_arraysOf, mem_arraysOf, List.mem_append, List.mem_append, or_comm]

theorem arraysOf_turn_eq_nil : arraysOf vars rhs lhs = [] ↔ arraysOf vars lhs rhs = [] := by
  simp only [List.eq_nil_iff_forall_not_mem, mem_arraysOf_turn]

theorem elementSubstitution_congr {names names' : List String}
    (h : ∀ name, name ∈ names' ↔ name ∈ names) (indices : List Int) :
    elementSubstitution names' indices = elementSubstitution names indices := by
  funext name
  have hcontains : names'.contains name = names.contains name := by
    rw [Bool.eq_iff_iff, List.contains_iff_mem, List.contains_iff_mem, h]
  unfold elementSubstitution
  rw [hcontains]

theorem elementSubstitution_turn (indices : List Int) :
    elementSubstitution ((arraysOf vars rhs lhs).map (·.1)) indices =
      elementSubstitution ((arraysOf vars lhs rhs).map (·.1)) indices := by
  apply elementSubstitution_congr
  intro name
  simp only [List.mem_map, mem_arraysOf_turn]

def LeftScalar (vars : List Variable) (lhs rhs : Expr) : Prop :=
  arraysOf vars lhs rhs ≠ [] ∧
    ∃ name, scalarTarget? vars ((arraysOf vars lhs rhs).map (·.1)) lhs = some name

def IsElement (vars : List Variable) (label : String) (lhs rhs : Expr) (indices : List Int)
    (l : Labelled) : Prop :=
  let σ := elementSubstitution ((arraysOf vars lhs rhs).map (·.1)) indices
  ∃ x y, lhs.substitute σ true = .ok x ∧ rhs.substitute σ true = .ok y ∧
    l = ⟨elementName label indices, .simple x y⟩

/-- What an equation is split into if scalars are admitted on both sides. -/
inductive Splits (vars : List Variable) (label : String) (lhs rhs : Expr) :
    List Labelled → Prop where
  | whole (harrays : arraysOf vars lhs rhs = []) :
    Splits vars label lhs rhs [⟨label, .simple lhs rhs⟩]
  | elements {ls : List Labelled} (shape : List Whole) (hne : arraysOf vars lhs rhs ≠ [])
    (hshapes : ∀ p ∈ arraysOf vars lhs rhs, shapeExtents p.2 = shapeExtents shape)
    (hls : List.Forall₂ (IsElement vars label lhs rhs)
      (rowMajor ((shapeExtents shape).map Int.toNat)) ls) :
    Splits vars label lhs rhs ls

theorem IsElement.turn {indices : List Int} {l : Labelled}
    (h : IsElement vars label lhs rhs indices l) :
    ∃ l', l.Turns l' ∧ IsElement vars label rhs lhs indices l' := by
  obtain ⟨x, y, hx, hy, rfl⟩ := h
  refine ⟨⟨elementName label indices, .simple y x⟩, ⟨rfl, .turn x y⟩, y, x, ?_, ?_, rfl⟩
  · rw [elementSubstitution_turn]
    exact hy
  · rw [elementSubstitution_turn]
    exact hx

theorem Splits.turn (h : Splits vars label lhs rhs ls) :
    ∃ ls', Splits vars label rhs lhs ls' ∧ List.Forall₂ Labelled.Turns ls ls' := by
  cases h with
  | whole harrays =>
    refine ⟨_, .whole (arraysOf_turn_eq_nil.mpr harrays), .cons ?_ .nil⟩
    exact ⟨rfl, .turn lhs rhs⟩
  | elements shape hne hshapes hls =>
    have hturned := hls.flip.imp fun _ _ hl => IsElement.turn hl
    obtain ⟨ls', hturns, hls'⟩ := Forall₂.exists_middle hturned
    refine ⟨ls', .elements shape (mt arraysOf_turn_eq_nil.mp hne) ?_ hls'.flip, hturns⟩
    exact fun p hp => hshapes p (mem_arraysOf_turn.mp hp)

theorem mapM_isElement {indices : List (List Int)} : (indices.mapM fun is => do
      let l ← lhs.substitute (elementSubstitution ((arraysOf vars lhs rhs).map (·.1)) is) true
      let r ← rhs.substitute (elementSubstitution ((arraysOf vars lhs rhs).map (·.1)) is) true
      return ⟨elementName label is, .simple l r⟩) = Except.ok ls ↔
    List.Forall₂ (IsElement vars label lhs rhs) indices ls := by
  simp only [mapM_eq_ok, bind_eq_ok, pure_eq_ok]
  constructor
  · intro h
    apply h.imp
    rintro is l ⟨x, hx, y, hy, rfl⟩
    exact ⟨x, y, hx, hy, rfl⟩
  · intro h
    apply h.imp
    rintro is l ⟨x, y, hx, hy, rfl⟩
    exact ⟨x, hx, y, hy, rfl⟩

theorem splitSimple_eq_ok : splitSimple vars label lhs rhs = .ok ls ↔
    Splits vars label lhs rhs ls ∧ ¬ LeftScalar vars lhs rhs := by
  unfold splitSimple
  split
  · next harrays =>
    constructor
    · intro h
      obtain rfl := Except.ok.inj h
      exact ⟨.whole harrays, fun hscalar => hscalar.1 harrays⟩
    · rintro ⟨h, _⟩
      cases h with
      | whole => rfl
      | elements _ hne => exact absurd harrays hne
  · next first shape others harrays =>
    have hne : arraysOf vars lhs rhs ≠ [] := by simp [harrays]
    dsimp only
    rw [← harrays]
    by_cases hany : (others.any fun p => decide (shapeExtents p.2 ≠ shapeExtents shape)) = true
    · rw [if_pos hany]
      refine iff_of_false (by simp) ?_
      rintro ⟨h, _⟩
      cases h with
      | whole h => exact hne h
      | elements shape' _ hshapes =>
        rw [harrays, List.forall_mem_cons] at hshapes
        obtain ⟨p, hp, hdiffers⟩ := List.any_eq_true.mp hany
        exact of_decide_eq_true hdiffers ((hshapes.2 p hp).trans hshapes.1.symm)
    · rw [if_neg hany]
      have hshapes : ∀ p ∈ arraysOf vars lhs rhs, shapeExtents p.2 = shapeExtents shape := by
        rw [harrays, List.forall_mem_cons]
        exact ⟨rfl, by simpa using hany⟩
      split
      · next name hname =>
        exact iff_of_false (by simp) fun h => h.2 ⟨hne, name, hname⟩
      · next hnone =>
        rw [mapM_isElement]
        constructor
        · intro h
          refine ⟨.elements shape hne hshapes h, ?_⟩
          rintro ⟨_, name, hname⟩
          exact absurd (hnone.symm.trans hname) (by simp)
        · rintro ⟨h, _⟩
          cases h with
          | whole h => exact absurd h hne
          | elements shape' _ hshapes' hls =>
            have hsame : shapeExtents shape' = shapeExtents shape := by
              have hmem : (first, shape) ∈ arraysOf vars lhs rhs := by simp [harrays]
              exact (hshapes' _ hmem).symm
            rwa [hsame] at hls

/-! ### Declared equations -/

/-- As it is expanded, the equation relates arrays, and its left side is a scalar of the draft. -/
def Draft.LeadsWithScalar (d : Draft) : Equation → Prop
  | .simple lhs rhs => ∃ l r, lhs.scalar Substitution.none = .ok l ∧
      rhs.scalar Substitution.none = .ok r ∧ LeftScalar d.vars l r
  | _ => False

variable {d d' : Draft} {e e' : Equation}

theorem Draft.leadsWithScalar_congr (hvars : d'.vars = d.vars) :
    d'.LeadsWithScalar e ↔ d.LeadsWithScalar e := by
  cases e <;> simp only [LeadsWithScalar, hvars]

theorem Draft.expandEquation_congr (hvars : d'.vars = d.vars) :
    d'.expandEquation label e = d.expandEquation label e := by
  unfold expandEquation
  rw [hvars]

theorem Draft.expandEquation_simple : d.expandEquation label (.simple lhs rhs) = .ok ls ↔
    ∃ l r, lhs.scalar Substitution.none = .ok l ∧ rhs.scalar Substitution.none = .ok r ∧
      Splits d.vars label l r ls ∧ ¬ LeftScalar d.vars l r := by
  simp only [expandEquation, Equation.expand, Equation.expandUnder, bind_eq_ok, pure_eq_ok,
    mapM_eq_ok]
  constructor
  · rintro ⟨_, ⟨l, hl, r, hr, rfl⟩, rounds, hrounds, rfl⟩
    cases hrounds with
    | cons hsplit hnil =>
      cases hnil
      rw [List.flatten_singleton]
      exact ⟨l, r, hl, hr, splitSimple_eq_ok.mp hsplit⟩
  · rintro ⟨l, r, hl, hr, hsplit⟩
    refine ⟨_, ⟨l, hl, r, hr, rfl⟩, [ls], .cons ?_ .nil, List.flatten_singleton⟩
    exact splitSimple_eq_ok.mpr hsplit

theorem Draft.not_leadsWithScalar (h : d.expandEquation label e = .ok ls) :
    ¬ d.LeadsWithScalar e := by
  cases e with
  | simple lhs rhs =>
    obtain ⟨l, r, hl, hr, _, hscalar⟩ := expandEquation_simple.mp h
    rintro ⟨l', r', hl', hr', hscalar'⟩
    obtain rfl := Except.ok.inj (hl.symm.trans hl')
    obtain rfl := Except.ok.inj (hr.symm.trans hr')
    exact hscalar hscalar'
  | loop | choice => exact id

theorem Equation.Turns.exists_expandEquation (h : e.Turns e') (hvars : d'.vars = d.vars)
    (hleft : ¬ d'.LeadsWithScalar e') (hls : d.expandEquation label e = .ok ls) :
    ∃ ls', d'.expandEquation label e' = .ok ls' ∧ List.Forall₂ Labelled.Turns ls ls' := by
  rw [Draft.leadsWithScalar_congr hvars] at hleft
  rw [Draft.expandEquation_congr hvars]
  cases h with
  | same => exact ⟨ls, hls, List.forall₂_same.mpr fun l _ => ⟨rfl, .same _⟩⟩
  | turn lhs rhs =>
    obtain ⟨l, r, hl, hr, hsplits, _⟩ := Draft.expandEquation_simple.mp hls
    obtain ⟨ls', hsplits', hturns⟩ := hsplits.turn
    refine ⟨ls', Draft.expandEquation_simple.mpr ⟨r, l, hr, hl, hsplits', ?_⟩, hturns⟩
    exact fun hscalar => hleft ⟨r, l, hr, hl, hscalar⟩

end Causality
