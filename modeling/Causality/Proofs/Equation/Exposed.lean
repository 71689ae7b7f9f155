import Causality.Proofs.Equation.Residuals
import Causality.Proofs.Equation.Shares

/-!
# Expressions that residuals show

A residual is seen through its expressions. Every side of a simple equation is among those of some
residual, since no simple equation is lost when bodies are merged. A condition goes to the residuals
that the bodies of its choice are merged into, so it is lost where the bodies assign nothing.
-/

namespace Causality

variable {e : Equation} {kind : ChoiceKind} {branches : List Branch}
  {otherwise : Option (List Equation)} {x : Expr}

/-! ### Expressions of nodes -/

namespace Equation

/-- The expression belongs to an equation inside that holds a simple equation: it is a side of one
or a condition above one. -/
def Exposes (e : Equation) (x : Expr) : Prop :=
  ∃ n ∈ e.nodes, x ∈ n.ownExprs ∧ ∃ q ∈ n.nodes, q.isSimple = true

/-- Every expression belongs to an equation inside. -/
theorem exists_node (e : Equation) : ∀ x ∈ e.exprs, ∃ n ∈ e.nodes, x ∈ n.ownExprs := by
  induction e using Equation.inductionOn with
  | simple lhs rhs => exact fun x hx => ⟨_, self_mem_nodes _, hx⟩
  | loop index start stop step body ih =>
    intro x hx
    rw [exprs] at hx
    obtain ⟨e, he, hx⟩ := mem_exprsAll.mp hx
    obtain ⟨n, hn, hx⟩ := ih e he x hx
    rw [nodes, nodesAll_eq]
    exact ⟨n, List.mem_cons_of_mem _ (List.mem_flatMap.mpr ⟨e, he, hn⟩), hx⟩
  | choice kind branches otherwise ih =>
    intro x hx
    rcases mem_exprs_choice.mp hx with hx | ⟨body, hbody, e, he, hx⟩
    · exact ⟨_, self_mem_nodes _, hx⟩
    · obtain ⟨n, hn, hx⟩ := ih body hbody e he x hx
      exact ⟨n, (forall_nodes_choice.mp fun _ h => h).2 body hbody e he n hn, hx⟩

/-- A choice exposes its conditions if it holds a simple equation, and what its bodies expose. -/
theorem exposes_choice : (choice kind branches otherwise).Exposes x ↔
    (x ∈ branches.map (·.condition) ∧
      ∃ body ∈ bodiesOf branches otherwise, ∃ e ∈ body, ∃ q ∈ e.nodes, q.isSimple = true) ∨
    ∃ body ∈ bodiesOf branches otherwise, ∃ e ∈ body, e.Exposes x := by
  have hnodes : ∀ n, n ∈ (choice kind branches otherwise).nodes ↔
      n = .choice kind branches otherwise ∨
        ∃ body ∈ bodiesOf branches otherwise, ∃ e ∈ body, n ∈ e.nodes := by
    intro n
    simp [nodes_choice, nodesAll_eq]
  have hsimple : (∃ q ∈ (choice kind branches otherwise).nodes, q.isSimple = true) ↔
      ∃ body ∈ bodiesOf branches otherwise, ∃ e ∈ body, ∃ q ∈ e.nodes, q.isSimple = true := by
    constructor
    · rintro ⟨q, hq, hsimple⟩
      obtain rfl | ⟨body, hbody, e, he, hq⟩ := (hnodes q).mp hq
      · cases hsimple
      · exact ⟨body, hbody, e, he, q, hq, hsimple⟩
    · rintro ⟨body, hbody, e, he, q, hq, hsimple⟩
      exact ⟨q, (hnodes q).mpr (.inr ⟨body, hbody, e, he, hq⟩), hsimple⟩
  rw [← hsimple]
  constructor
  · rintro ⟨n, hn, hx, hinside⟩
    obtain rfl | ⟨body, hbody, e, he, hn⟩ := (hnodes n).mp hn
    · exact .inl ⟨hx, hinside⟩
    · exact .inr ⟨body, hbody, e, he, n, hn, hx, hinside⟩
  · rintro (⟨hx, hinside⟩ | ⟨body, hbody, e, he, n, hn, hx, hinside⟩)
    · exact ⟨_, self_mem_nodes _, hx, hinside⟩
    · exact ⟨n, (hnodes n).mpr (.inr ⟨body, hbody, e, he, hn⟩), hx, hinside⟩

end Equation

/-! ### Expressions of bundles -/

/-- Merging loses no bundle, and adds the conditions if there is a bundle in the first body. -/
theorem Bundle.mem_exprs_merge {conditions : List Expr} {bodies : List (List Bundle)}
    (h : ∀ body ∈ bodies, (body.map (·.assigned)).Perm ((bodies.headD []).map (·.assigned))) :
    (∃ m ∈ merge conditions bodies, x ∈ m.exprs) ↔
      (x ∈ conditions ∧ bodies.headD [] ≠ []) ∨ ∃ body ∈ bodies, ∃ b ∈ body, x ∈ b.exprs := by
  constructor
  · rintro ⟨m, hm, hx⟩
    obtain ⟨b, place, hb, rfl⟩ := mem_merge.mp hm
    rcases List.mem_append.mp hx with hx | hx
    · exact .inl ⟨hx, List.ne_nil_of_mem (List.mem_of_getElem? hb)⟩
    · obtain ⟨c, hc, hx⟩ := List.mem_flatMap.mp hx
      obtain ⟨body, hbody, hc⟩ := List.mem_filterMap.mp hc
      exact .inr ⟨body, hbody, c, mem_of_partnerBy? hc, hx⟩
  · rintro (⟨hx, hne⟩ | ⟨body, hbody, b, hb, hx⟩)
    · obtain ⟨b, hb⟩ := List.exists_mem_of_ne_nil _ hne
      obtain ⟨place, hplace⟩ := List.mem_iff_getElem?.mp hb
      exact ⟨_, mem_merge.mpr ⟨b, place, hplace, rfl⟩, List.mem_append_left _ hx⟩
    · -- The bundle is the partner of a bundle of the first body.
      have hpartner := (perm_partnersAll h).mem_iff.mpr (List.mem_flatten.mpr ⟨body, hbody, hb⟩)
      obtain ⟨⟨first, place⟩, hfirst, hpartner⟩ := List.mem_flatMap.mp hpartner
      have hplace := List.mem_zipIdx_iff_getElem?.mp hfirst
      refine ⟨_, mem_merge.mpr ⟨first, place, hplace, rfl⟩, List.mem_append_right _ ?_⟩
      exact List.mem_flatMap.mpr ⟨b, hpartner, hx⟩

namespace Equation

/-- An equation inside a body makes a bundle of the body exactly if it holds a simple equation. -/
theorem bundles_ne_nil_iff (h : ∀ x, (∃ b ∈ e.bundles, x ∈ b.exprs) ↔ e.Exposes x) :
    e.bundles ≠ [] ↔ ∃ q ∈ e.nodes, q.isSimple = true := by
  constructor
  · intro hne
    obtain ⟨b, hb⟩ := List.exists_mem_of_ne_nil _ hne
    have hmade := e.isMadeFrom b hb
    obtain ⟨q, hq, _⟩ := hmade.assigned
    exact ⟨q, hmade.equations q hq⟩
  · rintro ⟨q, hq, hsimple⟩ hnil
    cases q with
    | simple lhs rhs =>
      obtain ⟨b, hb, _⟩ := (h lhs).mpr ⟨_, hq, List.mem_cons_self, _, self_mem_nodes _, rfl⟩
      simp [hnil] at hb
    | _ => cases hsimple

/-- Since the bodies assign the same variables, the first one has a bundle if any of them has. -/
theorem bundles_first_ne_nil_iff {bodies : List (List Equation)}
    (hperm : ∀ body ∈ bodies, (namesOf body).Perm (namesOf (bodies.headD []))) :
    bundlesAll (bodies.headD []) ≠ [] ↔ ∃ body ∈ bodies, ∃ e ∈ body, e.bundles ≠ [] := by
  have hbody : ∀ body : List Equation, bundlesAll body ≠ [] ↔ ∃ e ∈ body, e.bundles ≠ [] := by
    intro body
    simp [bundlesAll_eq]
  simp only [← hbody]
  constructor
  · intro hne
    cases bodies with
    | nil => exact absurd rfl hne
    | cons first others => exact ⟨first, List.mem_cons_self, hne⟩
  · rintro ⟨body, hmem, hne⟩ hnil
    have hlength := (hperm body hmem).length_eq
    rw [namesOf, namesOf, hnil, List.length_map, List.length_map, List.length_nil] at hlength
    exact hne (List.length_eq_zero_iff.mp hlength)

/-- Where every choice is balanced, the bundles show what is exposed. -/
theorem exists_bundle_iff (h : ∀ n ∈ e.nodes, n.IsBalanced) :
    ∀ x, (∃ b ∈ e.bundles, x ∈ b.exprs) ↔ e.Exposes x := by
  induction e using Equation.inductionOn with
  | simple lhs rhs => simp [bundles, Exposes, nodes, ownExprs, isSimple]
  | loop index start stop step body ih => cases h _ (self_mem_nodes _)
  | choice kind branches otherwise ih =>
    obtain ⟨⟨_, hperm⟩, hbodies⟩ := forall_nodes_choice.mp h
    have hinside : ∀ body ∈ bodiesOf branches otherwise, ∀ e ∈ body,
        ∀ x, (∃ b ∈ e.bundles, x ∈ b.exprs) ↔ e.Exposes x :=
      fun body hbody e he => ih body hbody e he (hbodies body hbody e he)
    have hpartners : ∀ body ∈ (bodiesOf branches otherwise).map bundlesAll,
        (body.map (·.assigned)).Perm
          ((((bodiesOf branches otherwise).map bundlesAll).headD []).map (·.assigned)) := by
      rw [List.forall_mem_map, headD_map rfl]
      exact hperm
    have hfirst : ((bodiesOf branches otherwise).map bundlesAll).headD [] ≠ [] ↔
        ∃ body ∈ bodiesOf branches otherwise, ∃ e ∈ body, ∃ q ∈ e.nodes, q.isSimple = true := by
      rw [headD_map rfl, bundles_first_ne_nil_iff hperm]
      refine exists_congr fun body => and_congr_right fun hbody => exists_congr fun e => ?_
      exact and_congr_right fun he => bundles_ne_nil_iff (hinside body hbody e he)
    intro x
    rw [bundles_choice, Bundle.mem_exprs_merge hpartners, exposes_choice, hfirst]
    refine or_congr_right ?_
    simp only [List.mem_map, exists_exists_and_eq_and, bundlesAll_eq, List.mem_flatMap]
    constructor
    · rintro ⟨body, hbody, b, ⟨e, he, hb⟩, hx⟩
      exact ⟨body, hbody, e, he, (hinside body hbody e he x).mp ⟨b, hb, hx⟩⟩
    · rintro ⟨body, hbody, e, he, hx⟩
      obtain ⟨b, hb, hx⟩ := (hinside body hbody e he x).mpr hx
      exact ⟨body, hbody, b, ⟨e, he, hb⟩, hx⟩

/-- The residuals of an equation show what is exposed. -/
theorem exists_residual_iff {rs : List Residual} (h : e.residuals = .ok rs) :
    (∃ r ∈ rs, x ∈ r.exprs) ↔ e.Exposes x := by
  obtain ⟨hbalanced, rfl⟩ := residuals_eq_ok.mp h
  rw [← exists_bundle_iff hbalanced x]
  simp [Bundle.residual]

end Equation

end Causality
