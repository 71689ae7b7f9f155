import Causality.Proofs.Model.Names

/-!
# Expansion under any label

What an equation expands to depends neither on its label, which only goes in front of the labels of
the results, nor on the order of the variables, as long as their names are different.
-/

namespace Causality

def Labelled.under (label : String) (x : Labelled) : Labelled := ⟨label ++ x.label, x.equation⟩

theorem Labelled.under_append (a b : String) (x : Labelled) :
    x.under (a ++ b) = (x.under b).under a := by
  unfold under
  rw [String.append_assoc]

theorem Labelled.under_empty (label : String) (e : Equation) :
    (⟨"", e⟩ : Labelled).under label = ⟨label, e⟩ := by
  unfold under
  rw [String.append_empty]

theorem Labelled.map_under_append (a b : String) (xs : List Labelled) :
    xs.map (under (a ++ b)) = (xs.map (under b)).map (under a) := by
  rw [List.map_map]
  apply List.map_congr_left
  exact fun x _ => x.under_append a b

theorem Labelled.map_equation_under (label : String) (xs : List Labelled) :
    (xs.map (under label)).map (·.equation) = xs.map (·.equation) := by
  rw [List.map_map]
  rfl

variable {σ : Substitution} {label : String} {ls : List Labelled}

/-! ### Expansion -/

mutual

theorem Equation.exists_expandUnder (e : Equation) (σ : Substitution) (label : String)
    (ls : List Labelled) (h : e.expandUnder σ label = .ok ls) :
    ∃ xs : List Labelled, ∀ label',
      e.expandUnder σ label' = .ok (xs.map (Labelled.under label')) := by
  match e with
  | .simple lhs rhs =>
    simp only [Equation.expandUnder, bind_eq_ok, pure_eq_ok] at h
    obtain ⟨l, hl, r, hr, rfl⟩ := h
    refine ⟨[⟨"", .simple l r⟩], fun label' => ?_⟩
    rw [Equation.expandUnder, hl, hr, List.map_singleton, Labelled.under_empty]
    rfl
  | .loop index start stop step body =>
    rw [Equation.expandUnder] at h
    by_cases hstep : step = 0
    · rw [if_pos hstep] at h
      cases h
    · rw [if_neg hstep] at h
      simp only [bind_eq_ok, pure_eq_ok, Progression.mapM_eq, mapM_eq_ok] at h
      obtain ⟨rounds, hrounds, rfl⟩ := h
      have hbodies : ∀ i ∈ (Progression.upTo start stop step).values,
          ∃ xs : List Labelled, ∀ label', ∃ text, roundLabel label' index body i = .ok text ∧
            Equation.expandAll (σ.bind index (.lit (.int i))) text 0 body =
              .ok (xs.map (Labelled.under label')) := by
        intro i hi
        obtain ⟨round, _, _, hlabel, hround⟩ := Forall₂.exists_right hrounds hi
        obtain ⟨hwritable, _⟩ := roundLabel_eq_ok.mp hlabel
        obtain ⟨xs, hxs⟩ := Equation.exists_expandAll body _ _ 0 round hround
        refine ⟨xs.map (Labelled.under ("[" ++ index ++ "=" ++ toString i ++ "]")),
          fun label' => ⟨_, roundLabel_eq_ok.mpr ⟨hwritable, rfl⟩, ?_⟩⟩
        rw [← Labelled.map_under_append, ← hxs]
        simp only [String.append_assoc]
      obtain ⟨parts, hparts⟩ := exists_forall₂ hbodies
      refine ⟨parts.flatten, fun label' => ?_⟩
      rw [Equation.expandUnder, if_neg hstep, Progression.mapM_eq]
      simp only [bind_eq_ok, pure_eq_ok, mapM_eq_ok]
      refine ⟨parts.map (List.map (Labelled.under label')), ?_, List.map_flatten.symm⟩
      rw [List.forall₂_map_right_iff]
      exact hparts.imp fun i xs hxs => hxs label'
  | .choice kind branches none =>
    simp only [Equation.expandUnder, bind_eq_ok, pure_eq_ok] at h
    obtain ⟨bs, hbs, rfl⟩ := h
    refine ⟨[⟨"", .choice kind bs none⟩], fun label' => ?_⟩
    rw [Equation.expandUnder, hbs, List.map_singleton, Labelled.under_empty]
    rfl
  | .choice kind branches (some otherwise) =>
    simp only [Equation.expandUnder, bind_eq_ok, pure_eq_ok] at h
    obtain ⟨bs, hbs, es, hes, rfl⟩ := h
    refine ⟨[⟨"", .choice kind bs (some (es.map (·.equation)))⟩], fun label' => ?_⟩
    rw [Equation.expandUnder, hbs, hes, List.map_singleton, Labelled.under_empty]
    rfl
termination_by structural e

theorem Equation.exists_expandAll (es : List Equation) (σ : Substitution) (label : String)
    (k : Nat) (ls : List Labelled) (h : Equation.expandAll σ label k es = .ok ls) :
    ∃ xs : List Labelled, ∀ label',
      Equation.expandAll σ label' k es = .ok (xs.map (Labelled.under label')) := by
  match es with
  | [] => exact ⟨[], fun label' => rfl⟩
  | e :: rest =>
    simp only [Equation.expandAll, bind_eq_ok, pure_eq_ok] at h
    obtain ⟨first, hfirst, others, hothers, rfl⟩ := h
    obtain ⟨xs, hxs⟩ := Equation.exists_expandUnder e σ _ first hfirst
    obtain ⟨ys, hys⟩ := Equation.exists_expandAll rest σ label (k + 1) others hothers
    refine ⟨xs.map (Labelled.under ("." ++ toString k)) ++ ys, fun label' => ?_⟩
    rw [Equation.expandAll, hxs, hys, List.map_append, ← Labelled.map_under_append,
      String.append_assoc]
    rfl
termination_by structural es

end

/-! ### Splitting -/

theorem SameNames.arraysOf {vars vars' : List Variable} (h : SameNames vars vars')
    (lhs rhs : Expr) : arraysOf vars' lhs rhs = arraysOf vars lhs rhs := by
  unfold Causality.arraysOf
  rw [h.declared]

theorem SameNames.scalarTarget? {vars vars' : List Variable} (h : SameNames vars vars')
    (arrays : List String) (lhs : Expr) :
    scalarTarget? vars' arrays lhs = scalarTarget? vars arrays lhs := by
  unfold Causality.scalarTarget?
  rw [h.owner]

variable {vars : List Variable}

theorem elementName_under (label : String) (indices : List Int) :
    elementName label indices = label ++ elementName "" indices := by
  simp [elementName, String.append_assoc]

theorem exists_splitSimple {lhs rhs : Expr} (h : splitSimple vars label lhs rhs = .ok ls) :
    ∃ xs : List Labelled, ∀ vars' label', SameNames vars vars' →
      splitSimple vars' label' lhs rhs = .ok (xs.map (Labelled.under label')) := by
  unfold splitSimple at h
  split at h
  · next harrays =>
    refine ⟨[⟨"", .simple lhs rhs⟩], fun vars' label' hsame => ?_⟩
    rw [splitSimple, hsame.arraysOf, harrays, List.map_singleton, Labelled.under_empty]
  · next first shape others harrays =>
    dsimp only at h
    by_cases hany : (others.any fun p => decide (shapeExtents p.2 ≠ shapeExtents shape)) = true
    · rw [if_pos hany] at h
      cases h
    rw [if_neg hany] at h
    split at h
    · cases h
    · next hscalar =>
      have hsides : ∀ indices ∈ rowMajor ((shapeExtents shape).map Int.toNat), ∃ x : Labelled,
          ∀ label', (do
            let l ← lhs.substitute
              (elementSubstitution (((first, shape) :: others).map (·.1)) indices) true
            let r ← rhs.substitute
              (elementSubstitution (((first, shape) :: others).map (·.1)) indices) true
            return ⟨elementName label' indices, .simple l r⟩) =
              (Except.ok (x.under label') : Except Fault Labelled) := by
        intro indices hindices
        obtain ⟨x, _, hx⟩ := Forall₂.exists_right (mapM_eq_ok.mp h) hindices
        simp only [bind_eq_ok, pure_eq_ok] at hx
        obtain ⟨l, hl, r, hr, rfl⟩ := hx
        refine ⟨⟨elementName "" indices, .simple l r⟩, fun label' => ?_⟩
        rw [hl, hr, elementName_under]
        rfl
      obtain ⟨xs, hxs⟩ := exists_forall₂ hsides
      refine ⟨xs, fun vars' label' hsame => ?_⟩
      rw [splitSimple, hsame.arraysOf, harrays]
      dsimp only
      rw [if_neg hany, hsame.scalarTarget?, hscalar, mapM_eq_ok, List.forall₂_map_right_iff]
      exact hxs.imp fun indices x hx => hx label'

mutual

theorem Equation.exists_split (e : Equation) (label : String) (ls : List Labelled)
    (h : e.split vars label = .ok ls) :
    ∃ xs : List Labelled, ∀ vars' label', SameNames vars vars' →
      e.split vars' label' = .ok (xs.map (Labelled.under label')) := by
  match e with
  | .simple lhs rhs => exact exists_splitSimple h
  | .loop index start stop step body =>
    refine ⟨[⟨"", .loop index start stop step body⟩], fun vars' label' _ => ?_⟩
    rw [Equation.split, List.map_singleton, Labelled.under_empty]
  | .choice kind branches none =>
    simp only [Equation.split, bind_eq_ok, pure_eq_ok] at h
    obtain ⟨bs, hbs, rfl⟩ := h
    refine ⟨[⟨"", .choice kind bs none⟩], fun vars' label' hsame => ?_⟩
    rw [Equation.split, Branch.splitAll_congr branches label bs hbs vars' label' hsame,
      List.map_singleton, Labelled.under_empty]
    rfl
  | .choice kind branches (some otherwise) =>
    rw [Equation.split] at h
    by_cases hempty : branches.isEmpty = true
    · refine ⟨[⟨"", .choice kind branches (some otherwise)⟩], fun vars' label' _ => ?_⟩
      rw [Equation.split, if_pos hempty, List.map_singleton, Labelled.under_empty]
    · rw [if_neg hempty] at h
      simp only [bind_eq_ok, pure_eq_ok] at h
      obtain ⟨bs, hbs, es, hes, rfl⟩ := h
      refine ⟨[⟨"", .choice kind bs (some es)⟩], fun vars' label' hsame => ?_⟩
      rw [Equation.split, if_neg hempty,
        Branch.splitAll_congr branches label bs hbs vars' label' hsame,
        Equation.splitAll_congr otherwise label es hes vars' label' hsame,
        List.map_singleton, Labelled.under_empty]
      rfl
termination_by structural e

theorem Equation.splitAll_congr (es : List Equation) (label : String) (rs : List Equation)
    (h : Equation.splitAll vars label es = .ok rs) (vars' : List Variable) (label' : String)
    (hsame : SameNames vars vars') : Equation.splitAll vars' label' es = .ok rs := by
  match es with
  | [] => exact h
  | e :: rest =>
    simp only [Equation.splitAll, bind_eq_ok, pure_eq_ok] at h
    obtain ⟨first, hfirst, others, hothers, rfl⟩ := h
    obtain ⟨xs, hxs⟩ := Equation.exists_split e label first hfirst
    obtain rfl := Except.ok.inj (hfirst.symm.trans (hxs vars label ⟨rfl, rfl⟩))
    rw [Equation.splitAll, hxs vars' label' hsame,
      Equation.splitAll_congr rest label others hothers vars' label' hsame]
    rw [Labelled.map_equation_under label, ← Labelled.map_equation_under label']
    rfl
termination_by structural es

theorem Branch.splitAll_congr (bs : List Branch) (label : String) (rs : List Branch)
    (h : Branch.splitAll vars label bs = .ok rs) (vars' : List Variable) (label' : String)
    (hsame : SameNames vars vars') : Branch.splitAll vars' label' bs = .ok rs := by
  match bs with
  | [] => exact h
  | .mk condition body :: rest =>
    simp only [Branch.splitAll, bind_eq_ok, pure_eq_ok] at h
    obtain ⟨es, hes, others, hothers, rfl⟩ := h
    rw [Branch.splitAll, Equation.splitAll_congr body label es hes vars' label' hsame,
      Branch.splitAll_congr rest label others hothers vars' label' hsame]
    rfl
termination_by structural bs

end

/-- The scalar equations of a declared equation, apart from its label. -/
theorem Draft.exists_expandEquation {d : Draft} {e : Equation}
    (h : d.expandEquation label e = .ok ls) :
    ∃ xs : List Labelled, ∀ (d' : Draft) label', SameNames d.vars d'.vars →
      d'.expandEquation label' e = .ok (xs.map (Labelled.under label')) := by
  simp only [Draft.expandEquation, Equation.expand, bind_eq_ok, pure_eq_ok, mapM_eq_ok] at h
  obtain ⟨expanded, hexpanded, rounds, hrounds, rfl⟩ := h
  obtain ⟨xs, hxs⟩ := Equation.exists_expandUnder e _ label expanded hexpanded
  obtain rfl := Except.ok.inj (hexpanded.symm.trans (hxs label))
  rw [List.forall₂_map_left_iff] at hrounds
  have hparts : ∀ x ∈ xs, ∃ ys : List Labelled, ∀ (d' : Draft) label', SameNames d.vars d'.vars →
      x.equation.split d'.vars (label' ++ x.label) = .ok (ys.map (Labelled.under label')) := by
    intro x hx
    obtain ⟨round, _, hround⟩ := Forall₂.exists_right hrounds hx
    obtain ⟨ys, hys⟩ := Equation.exists_split x.equation _ round hround
    refine ⟨ys.map (Labelled.under x.label), fun d' label' hsame => ?_⟩
    rw [hys d'.vars _ hsame, Labelled.map_under_append]
  obtain ⟨parts, hparts⟩ := exists_forall₂ hparts
  refine ⟨parts.flatten, fun d' label' hsame => ?_⟩
  simp only [Draft.expandEquation, Equation.expand, bind_eq_ok, pure_eq_ok, mapM_eq_ok]
  refine ⟨_, hxs label', parts.map (List.map (Labelled.under label')), ?_, List.map_flatten.symm⟩
  rw [List.forall₂_map_left_iff, List.forall₂_map_right_iff]
  exact hparts.imp fun x ys hys => hys d' label' hsame

end Causality
