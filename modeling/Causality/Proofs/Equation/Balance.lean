import Causality.Proofs.Equation.Bundles

/-!
# Balanced choices

Of every choice one body is in force. That each choice is balanced in itself comes to a law on the
whole equation: whichever bodies are chosen, the simple equations in force assign the same
variables. An equation without loops that breaks the law is refused as unbalanced.
-/

namespace Causality

mutual

/-- The simple equations in force, for each way to choose one body of every choice. -/
def Equation.outcomes : Equation → List (List Equation)
  | .simple lhs rhs => [[.simple lhs rhs]]
  | .loop _ _ _ _ _ => []
  | .choice _ branches none => Branch.outcomes branches
  | .choice _ branches (some otherwise) =>
    Branch.outcomes branches ++ Equation.outcomesAll otherwise
termination_by structural e => e

def Equation.outcomesAll : List Equation → List (List Equation)
  | [] => [[]]
  | e :: rest =>
    (Equation.outcomes e).flatMap fun first => (Equation.outcomesAll rest).map (first ++ ·)
termination_by structural es => es

def Branch.outcomes : List Branch → List (List Equation)
  | [] => []
  | .mk _ body :: rest => Equation.outcomesAll body ++ Branch.outcomes rest
termination_by structural bs => bs

end

theorem Branch.outcomes_eq (bs : List Branch) :
    Branch.outcomes bs = (bs.map (·.body)).flatMap Equation.outcomesAll := by
  induction bs with
  | nil => rfl
  | cons b rest ih =>
    obtain ⟨condition, body⟩ := b
    rw [Branch.outcomes, ih, List.map_cons, List.flatMap_cons, Branch.body]

namespace Equation

variable {e : Equation} {es rest s t : List Equation} {kind : ChoiceKind} {branches : List Branch}
  {otherwise : Option (List Equation)}

theorem outcomes_choice (kind : ChoiceKind) (branches : List Branch)
    (otherwise : Option (List Equation)) : (choice kind branches otherwise).outcomes =
      (bodiesOf branches otherwise).flatMap outcomesAll := by
  cases otherwise with
  | none => simp [outcomes, bodiesOf, Branch.outcomes_eq]
  | some otherwise => simp [outcomes, bodiesOf, Branch.outcomes_eq, List.flatMap_append]

theorem mem_outcomesAll_cons : s ∈ outcomesAll (e :: rest) ↔
    ∃ first ∈ e.outcomes, ∃ later ∈ outcomesAll rest, first ++ later = s := by
  simp [outcomesAll]

theorem outcomesAll_ne_nil (h : ∀ e ∈ es, e.outcomes ≠ []) : outcomesAll es ≠ [] := by
  induction es with
  | nil => exact List.cons_ne_nil _ _
  | cons e rest ih =>
    rw [List.forall_mem_cons] at h
    obtain ⟨first, hfirst⟩ := List.exists_mem_of_ne_nil _ h.1
    obtain ⟨later, hlater⟩ := List.exists_mem_of_ne_nil _ (ih h.2)
    exact List.ne_nil_of_mem (mem_outcomesAll_cons.mpr ⟨first, hfirst, later, hlater, rfl⟩)

theorem IsComplete.bodies_ne_nil (h : (choice kind branches otherwise).IsComplete) :
    bodiesOf branches otherwise ≠ [] := by
  cases kind with
  | ifThen => simp [bodiesOf, h.1]
  | whenThen => simp [bodiesOf, h.1]

theorem LoopFree.outcomes_ne_nil (hloops : e.LoopFree) (h : ∀ n ∈ e.nodes, n.IsComplete) :
    e.outcomes ≠ [] := by
  induction e using Equation.inductionOn with
  | simple lhs rhs => exact List.cons_ne_nil _ _
  | loop index start stop step body ih => cases hloops _ (self_mem_nodes _)
  | choice kind branches otherwise ih =>
    rw [LoopFree, forall_nodes_choice] at hloops
    rw [forall_nodes_choice] at h
    obtain ⟨body, hbody⟩ := List.exists_mem_of_ne_nil _ h.1.bodies_ne_nil
    obtain ⟨s, hs⟩ := List.exists_mem_of_ne_nil _ (outcomesAll_ne_nil fun e he =>
      ih body hbody e he (hloops.2 body hbody e he) (h.2 body hbody e he))
    rw [outcomes_choice]
    exact List.ne_nil_of_mem (List.mem_flatMap.mpr ⟨body, hbody, hs⟩)

def assignedNames (es : List Equation) : List (Option String) := es.map (·.assignedName)

/-! ### From each choice to the outcomes -/

theorem assignedNames_append (s t : List Equation) :
    assignedNames (s ++ t) = assignedNames s ++ assignedNames t := List.map_append

theorem assigned_bundles_choice : (choice kind branches otherwise).bundles.map (·.assigned) =
    namesOf ((bodiesOf branches otherwise).headD []) := by
  rw [bundles_choice, Bundle.map_assigned_merge, headD_map rfl, namesOf]

theorem perm_namesOf (h : ∀ e ∈ es, ∀ s ∈ e.outcomes,
    (assignedNames s).Perm (e.bundles.map (·.assigned))) :
    ∀ s ∈ outcomesAll es, (assignedNames s).Perm (namesOf es) := by
  induction es with
  | nil =>
    intro s hs
    obtain rfl := List.mem_singleton.mp hs
    exact .nil
  | cons e rest ih =>
    rw [List.forall_mem_cons] at h
    intro s hs
    obtain ⟨first, hfirst, later, hlater, rfl⟩ := mem_outcomesAll_cons.mp hs
    rw [assignedNames_append, namesOf, bundlesAll, List.map_append]
    exact (h.1 first hfirst).append (ih h.2 later hlater)

/-- Where each choice is balanced, every outcome assigns what the residuals do. -/
theorem perm_bundles (h : ∀ n ∈ e.nodes, n.IsBalanced) :
    ∀ s ∈ e.outcomes, (assignedNames s).Perm (e.bundles.map (·.assigned)) := by
  induction e using Equation.inductionOn with
  | simple lhs rhs =>
    intro s hs
    obtain rfl := List.mem_singleton.mp hs
    exact .refl _
  | loop index start stop step body ih => exact List.forall_mem_nil _
  | choice kind branches otherwise ih =>
    obtain ⟨⟨_, hperm⟩, hbodies⟩ := forall_nodes_choice.mp h
    intro s hs
    rw [outcomes_choice] at hs
    obtain ⟨body, hbody, hs⟩ := List.mem_flatMap.mp hs
    have hnames := perm_namesOf (fun e he => ih body hbody e he (hbodies body hbody e he)) s hs
    rw [assigned_bundles_choice]
    exact hnames.trans (hperm body hbody)

/-! ### From the outcomes to each choice -/

def Alike (outcomes : List (List Equation)) : Prop :=
  ∀ s ∈ outcomes, ∀ t ∈ outcomes, (assignedNames s).Perm (assignedNames t)

/-- With the other equations held fixed, the outcomes of one have to be alike. -/
theorem Alike.of_all (h : Alike (outcomesAll es)) (hne : ∀ e ∈ es, e.outcomes ≠ []) :
    ∀ e ∈ es, Alike e.outcomes := by
  induction es with
  | nil => exact List.forall_mem_nil _
  | cons e rest ih =>
    rw [List.forall_mem_cons] at hne ⊢
    constructor
    · obtain ⟨later, hlater⟩ := List.exists_mem_of_ne_nil _ (outcomesAll_ne_nil hne.2)
      intro s hs t ht
      have hperm := h _ (mem_outcomesAll_cons.mpr ⟨s, hs, later, hlater, rfl⟩) _
        (mem_outcomesAll_cons.mpr ⟨t, ht, later, hlater, rfl⟩)
      rw [assignedNames_append, assignedNames_append] at hperm
      exact (List.perm_append_right_iff _).mp hperm
    · obtain ⟨first, hfirst⟩ := List.exists_mem_of_ne_nil _ hne.1
      refine ih (fun s hs t ht => ?_) hne.2
      have hperm := h _ (mem_outcomesAll_cons.mpr ⟨first, hfirst, s, hs, rfl⟩) _
        (mem_outcomesAll_cons.mpr ⟨first, hfirst, t, ht, rfl⟩)
      rw [assignedNames_append, assignedNames_append] at hperm
      exact (List.perm_append_left_iff _).mp hperm

theorem balanced_of_alike (hloops : e.LoopFree) (hcomplete : ∀ n ∈ e.nodes, n.IsComplete)
    (h : Alike e.outcomes) : ∀ n ∈ e.nodes, n.IsBalanced := by
  induction e using Equation.inductionOn with
  | simple lhs rhs =>
    intro n hn
    obtain rfl := List.mem_singleton.mp hn
    trivial
  | loop index start stop step body ih => cases hloops _ (self_mem_nodes _)
  | choice kind branches otherwise ih =>
    rw [LoopFree, forall_nodes_choice] at hloops
    rw [forall_nodes_choice] at hcomplete
    have hne : ∀ body ∈ bodiesOf branches otherwise, ∀ e ∈ body, e.outcomes ≠ [] :=
      fun body hbody e he => LoopFree.outcomes_ne_nil (hloops.2 body hbody e he)
        (hcomplete.2 body hbody e he)
    have hmem : ∀ body ∈ bodiesOf branches otherwise, ∀ s ∈ outcomesAll body,
        s ∈ (choice kind branches otherwise).outcomes := by
      intro body hbody s hs
      rw [outcomes_choice]
      exact List.mem_flatMap.mpr ⟨body, hbody, hs⟩
    -- The bodies come first: once they are balanced, any outcome tells what they assign.
    have hbodies : ∀ body ∈ bodiesOf branches otherwise, ∀ e ∈ body, ∀ n ∈ e.nodes,
        n.IsBalanced := by
      intro body hbody e he
      have halike : Alike (outcomesAll body) :=
        fun s hs t ht => h s (hmem body hbody s hs) t (hmem body hbody t ht)
      exact ih body hbody e he (hloops.2 body hbody e he) (hcomplete.2 body hbody e he)
        (halike.of_all (hne body hbody) e he)
    have hnames : ∀ body ∈ bodiesOf branches otherwise, ∀ s ∈ outcomesAll body,
        (assignedNames s).Perm (namesOf body) :=
      fun body hbody => perm_namesOf fun e he => perm_bundles (hbodies body hbody e he)
    refine forall_nodes_choice.mpr ⟨⟨hcomplete.1, fun body hbody => ?_⟩, hbodies⟩
    obtain ⟨first, others, hfirst⟩ := List.exists_cons_of_ne_nil hcomplete.1.bodies_ne_nil
    have hhead : first ∈ bodiesOf branches otherwise := hfirst ▸ List.mem_cons_self
    obtain ⟨s, hs⟩ := List.exists_mem_of_ne_nil _ (outcomesAll_ne_nil (hne body hbody))
    obtain ⟨t, ht⟩ := List.exists_mem_of_ne_nil _ (outcomesAll_ne_nil (hne first hhead))
    have hchosen := h s (hmem body hbody s hs) t (hmem first hhead t ht)
    rw [hfirst]
    exact (hnames body hbody s hs).symm.trans (hchosen.trans (hnames first hhead t ht))

/-! ### The law -/

theorem IsBalanced.isComplete (h : e.IsBalanced) : e.IsComplete := by
  cases e with
  | simple lhs rhs => trivial
  | loop index start stop step body => trivial
  | choice kind branches otherwise => exact h.1

/-- An equation without loops has residuals exactly if every choice in it has the bodies it needs
and the simple equations in force assign the same variables, whichever bodies are chosen. Otherwise
it is refused as unbalanced, unless a choice without the bodies it needs cannot be written. The
residuals assign the variables that are assigned by any choice. -/
theorem balance_is_global (e : Equation) (h : e.LoopFree) :
    ((∃ rs, e.residuals = .ok rs) ↔ (∀ n ∈ e.nodes, n.IsComplete) ∧
      ∀ s ∈ e.outcomes, ∀ t ∈ e.outcomes, (assignedNames s).Perm (assignedNames t)) ∧
    ((∃ rs, e.residuals = .ok rs) ∨
      ∃ fault, e.residuals = .error fault ∧ (fault.isUnbalance = true ∨
        fault = .unwritableInteger ∧ ∃ n ∈ e.nodes, ¬ n.IsComplete ∧ n.isWritable = false)) ∧
    ∀ rs, e.residuals = .ok rs → e.outcomes ≠ [] ∧
      ∀ s ∈ e.outcomes, (rs.map (·.assigned)).Perm (assignedNames s) := by
  refine ⟨⟨?_, ?_⟩, h.unbalance.succeeds_or, ?_⟩
  · rintro ⟨rs, hrs⟩
    obtain ⟨hbalanced, _⟩ := residuals_eq_ok.mp hrs
    refine ⟨fun n hn => (hbalanced n hn).isComplete, fun s hs t ht => ?_⟩
    exact (perm_bundles hbalanced s hs).trans (perm_bundles hbalanced t ht).symm
  · rintro ⟨hcomplete, halike⟩
    exact ⟨_, residuals_eq_ok.mpr ⟨balanced_of_alike h hcomplete halike, rfl⟩⟩
  · intro rs hrs
    obtain ⟨hbalanced, rfl⟩ := residuals_eq_ok.mp hrs
    refine ⟨h.outcomes_ne_nil fun n hn => (hbalanced n hn).isComplete, fun s hs => ?_⟩
    rw [List.map_map]
    exact (perm_bundles hbalanced s hs).symm

/-- A choice inside a choice, and the branches assign `x` and `y` in different orders. -/
def nested : Equation :=
  .choice .ifThen
    [.mk (.var "c")
      [.choice .ifThen [.mk (.var "d") [.simple (.var "x") (.lit (.int 1))]]
        (some [.simple (.var "x") (.lit (.int 2))]),
       .simple (.var "y") (.lit (.int 3))]]
    (some [.simple (.var "y") (.lit (.int 4)), .simple (.var "x") (.lit (.int 5))])

theorem nested_balance : nested.LoopFree ∧ ∃ rs, nested.residuals = .ok rs ∧
    ∀ s ∈ nested.outcomes, (rs.map (·.assigned)).Perm (assignedNames s) := by
  have hloops : nested.LoopFree := by
    unfold LoopFree
    decide
  have hcomplete : ∀ n ∈ nested.nodes, n.IsComplete := by
    simp [nested, nodes, nodesAll, Branch.nodesAll, IsComplete]
  have halike : ∀ s ∈ nested.outcomes, ∀ t ∈ nested.outcomes,
      (assignedNames s).Perm (assignedNames t) := by decide
  obtain ⟨rs, hrs⟩ := (balance_is_global nested hloops).1.mpr ⟨hcomplete, halike⟩
  exact ⟨hloops, rs, hrs, ((balance_is_global nested hloops).2.2 rs hrs).2⟩

/-- An if-equation without an else branch, whose condition is a number. -/
def unending (n : Int) : Equation := .choice .ifThen [.mk (.lit (.int n)) []] none

theorem loopFree_unending (n : Int) : (unending n).LoopFree := by
  simp [LoopFree, unending, nodes, nodesAll, Branch.nodesAll, isLoop]

theorem not_isComplete_unending (n : Int) : ¬ (unending n).IsComplete := by
  simp [unending, IsComplete]

theorem residuals_unending {n : Int} (h : (unending n).isWritable = false) :
    (unending n).residuals = .error .unwritableInteger := by
  change Except.error (Fault.missingElse (unending n)).raised = _
  rw [Fault.raised, Fault.isWritable, h]
  rfl

/-- With a condition of 5001 digits the equation is not reported as unbalanced, because the report
would show it. -/
theorem unending_is_unreported :
    let e := unending (Decimal.tens 5000)
    e.LoopFree ∧ ¬ e.IsComplete ∧ e.residuals = .error .unwritableInteger ∧
      Fault.unwritableInteger.isUnbalance = false :=
  ⟨loopFree_unending _, not_isComplete_unending _, residuals_unending (by decide +kernel), rfl⟩

end Equation

end Causality
