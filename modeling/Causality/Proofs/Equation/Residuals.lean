import Causality.Proofs.Equation.Bundles
import Causality.Proofs.Equation.NormalForm
import Causality.Proofs.Expr.Faults

/-!
# Residuals of expanded equations

A residual holds expressions of its equation only. An expanded equation is free of loops, so that
only the branches of a choice can be wrong, which is an error of the model.
-/

namespace Causality

variable {e : Equation} {kind : ChoiceKind} {branches : List Branch}
  {otherwise : Option (List Equation)} {x : Expr}

/-! ### The expressions -/

theorem Equation.mem_exprsAll {es : List Equation} :
    x ∈ Equation.exprsAll es ↔ ∃ e ∈ es, x ∈ e.exprs := by
  induction es with
  | nil => simp [Equation.exprsAll]
  | cons e rest ih => rw [Equation.exprsAll, List.mem_append, ih, List.exists_mem_cons_iff]

theorem Branch.mem_exprsAll {bs : List Branch} : x ∈ Branch.exprsAll bs ↔
    x ∈ bs.map (·.condition) ∨ ∃ body ∈ bs.map (·.body), ∃ e ∈ body, x ∈ e.exprs := by
  induction bs with
  | nil => simp [Branch.exprsAll]
  | cons b rest ih =>
    obtain ⟨condition, body⟩ := b
    rw [Branch.exprsAll, List.mem_cons, List.mem_append, ih, Equation.mem_exprsAll, List.map_cons,
      List.map_cons, List.mem_cons, List.exists_mem_cons_iff, Branch.condition, Branch.body,
      or_assoc]
    exact or_congr_right or_left_comm

namespace Equation

theorem mem_exprs_choice : x ∈ (choice kind branches otherwise).exprs ↔
    x ∈ branches.map (·.condition) ∨
      ∃ body ∈ bodiesOf branches otherwise, ∃ e ∈ body, x ∈ e.exprs := by
  cases otherwise with
  | none => simp [exprs, bodiesOf, Branch.mem_exprsAll]
  | some otherwise =>
    rw [exprs, List.mem_append, Branch.mem_exprsAll, mem_exprsAll, bodiesOf, Option.toList_some,
      or_assoc]
    simp only [List.mem_append, List.mem_singleton, or_and_right, exists_or, exists_eq_left]

theorem exprs_nodes (e : Equation) : ∀ n ∈ e.nodes, ∀ x ∈ n.exprs, x ∈ e.exprs := by
  induction e using Equation.inductionOn with
  | simple lhs rhs => simp [nodes]
  | loop index start stop step body ih =>
    intro n hn x hx
    rw [nodes, nodesAll_eq, List.mem_cons, List.mem_flatMap] at hn
    obtain rfl | ⟨e, he, hn⟩ := hn
    · exact hx
    · exact mem_exprsAll.mpr ⟨e, he, ih e he n hn x hx⟩
  | choice kind branches otherwise ih =>
    refine forall_nodes_choice.mpr ⟨fun _ hx => hx, fun body hbody e he n hn x hx => ?_⟩
    exact mem_exprs_choice.mpr (.inr ⟨body, hbody, e, he, ih body hbody e he n hn x hx⟩)

theorem exprs_of_residuals (e : Equation) (rs : List Residual) (h : e.residuals = .ok rs) :
    ∀ r ∈ rs, ∀ x ∈ r.exprs, x ∈ e.exprs := by
  obtain ⟨_, rfl⟩ := residuals_eq_ok.mp h
  rw [List.forall_mem_map]
  intro k hk x hx
  have hmade := e.isMadeFrom k hk
  rcases List.mem_append.mp (hmade.exprs.subset hx) with hx | hx
  · obtain ⟨kind, branches, otherwise, hnode, hcondition⟩ := hmade.conditions x hx
    exact e.exprs_nodes _ hnode x (mem_exprs_choice.mpr (.inl hcondition))
  · obtain ⟨q, hq, hx⟩ := List.mem_flatMap.mp hx
    exact e.exprs_nodes q (hmade.equations q hq).1 x hx

end Equation

/-! ### Expanded equations -/

theorem Branch.expandedAll_iff {bs : List Branch} : Branch.ExpandedAll bs ↔
    (∀ c ∈ bs.map (·.condition), c.Plain) ∧
      ∀ body ∈ bs.map (·.body), ∀ e ∈ body, e.Expanded := by
  induction bs with
  | nil => simp [Branch.ExpandedAll]
  | cons b rest ih =>
    obtain ⟨condition, body⟩ := b
    rw [Branch.ExpandedAll, ih, Equation.expandedAll_iff, List.map_cons, List.map_cons,
      List.forall_mem_cons, List.forall_mem_cons, Branch.condition, Branch.body]
    tauto

namespace Equation

theorem expanded_choice : (choice kind branches otherwise).Expanded ↔
    (∀ c ∈ branches.map (·.condition), c.Plain) ∧
      ∀ body ∈ bodiesOf branches otherwise, ∀ e ∈ body, e.Expanded := by
  cases otherwise with
  | none => rw [Expanded, Branch.expandedAll_iff, bodiesOf, Option.toList_none, List.append_nil]
  | some otherwise =>
    rw [Expanded, Branch.expandedAll_iff, expandedAll_iff, bodiesOf, Option.toList_some,
      List.forall_mem_append, List.forall_mem_singleton, and_assoc]

theorem Expanded.plain (e : Equation) (he : e.Expanded) : ∀ x ∈ e.exprs, x.Plain := by
  induction e using Equation.inductionOn with
  | simple lhs rhs =>
    rw [exprs, List.forall_mem_cons, List.forall_mem_singleton]
    exact he
  | loop index start stop step body ih => exact he.elim
  | choice kind branches otherwise ih =>
    obtain ⟨hconditions, hbodies⟩ := expanded_choice.mp he
    intro x hx
    obtain hx | ⟨body, hbody, e, he, hx⟩ := mem_exprs_choice.mp hx
    · exact hconditions x hx
    · exact ih body hbody e he (hbodies body hbody e he) x hx

theorem Expanded.loopFree (he : e.Expanded) : e.LoopFree := by
  induction e using Equation.inductionOn with
  | simple lhs rhs => exact List.forall_mem_singleton.mpr rfl
  | loop index start stop step body ih => exact he.elim
  | choice kind branches otherwise ih =>
    refine forall_nodes_choice.mpr ⟨rfl, fun body hbody e hmem => ?_⟩
    exact ih body hbody e hmem ((expanded_choice.mp he).2 body hbody e hmem)

end Equation

theorem Fault.isModelError_of_isUnbalance {fault : Fault} (h : fault.isUnbalance = true) :
    fault.isModelError = true := by
  cases fault <;> first | rfl | cases h

end Causality
