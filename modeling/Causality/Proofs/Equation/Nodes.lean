import Causality.Equation.Residual
import Causality.Proofs.Failure

/-!
# Equations inside equations

A choice has a body for each condition, and an if-equation one more without a condition. A statement
about all equations follows by induction from the equations of the bodies. Whether a choice has the
bodies it needs is told from the choice alone.
-/

namespace Causality

def bodiesOf (branches : List Branch) (otherwise : Option (List Equation)) :
    List (List Equation) :=
  branches.map (·.body) ++ otherwise.toList

/-- A statement holds of all equations if it holds of one whenever it does of those inside. -/
@[elab_as_elim]
theorem Equation.inductionOn {motive : Equation → Prop}
    (simple : ∀ lhs rhs, motive (.simple lhs rhs))
    (loop : ∀ index start stop step body, (∀ e ∈ body, motive e) →
      motive (.loop index start stop step body))
    (choice : ∀ kind branches otherwise,
      (∀ body ∈ bodiesOf branches otherwise, ∀ e ∈ body, motive e) →
        motive (.choice kind branches otherwise))
    (e : Equation) : motive e := by
  -- The motives of lists say that the members have the motive of equations.
  refine @Equation.rec motive (fun b => ∀ e ∈ b.body, motive e) (fun es => ∀ e ∈ es, motive e)
    (fun bs => ∀ body ∈ bs.map (·.body), ∀ e ∈ body, motive e)
    (fun otherwise => ∀ body ∈ otherwise.toList, ∀ e ∈ body, motive e)
    simple loop ?_ ?_ ?_ ?_ ?_ ?_ ?_ ?_ e
  · intro kind branches otherwise hbranches hotherwise
    exact choice kind branches otherwise (List.forall_mem_append.mpr ⟨hbranches, hotherwise⟩)
  · exact fun _ _ hbody => hbody
  · exact List.forall_mem_nil _
  · exact fun _ _ he hrest => List.forall_mem_cons.mpr ⟨he, hrest⟩
  · exact List.forall_mem_nil _
  · exact fun _ _ hb hrest => List.forall_mem_cons.mpr ⟨hb, hrest⟩
  · exact List.forall_mem_nil _
  · exact fun _ hbody => List.forall_mem_cons.mpr ⟨hbody, List.forall_mem_nil _⟩

/-! ### Nodes -/

mutual

/-- The equation and all equations inside. -/
def Equation.nodes : Equation → List Equation
  | .simple lhs rhs => [.simple lhs rhs]
  | .loop index start stop step body =>
    .loop index start stop step body :: Equation.nodesAll body
  | .choice kind branches none => .choice kind branches none :: Branch.nodesAll branches
  | .choice kind branches (some otherwise) =>
    .choice kind branches (some otherwise) ::
      (Branch.nodesAll branches ++ Equation.nodesAll otherwise)
termination_by structural e => e

def Equation.nodesAll : List Equation → List Equation
  | [] => []
  | e :: rest => Equation.nodes e ++ Equation.nodesAll rest
termination_by structural es => es

def Branch.nodesAll : List Branch → List Equation
  | [] => []
  | .mk _ body :: rest => Equation.nodesAll body ++ Branch.nodesAll rest
termination_by structural bs => bs

end

theorem Branch.nodesAll_eq (bs : List Branch) :
    Branch.nodesAll bs = (bs.map (·.body)).flatMap Equation.nodesAll := by
  induction bs with
  | nil => rfl
  | cons b rest ih =>
    obtain ⟨condition, body⟩ := b
    rw [Branch.nodesAll, ih, List.map_cons, List.flatMap_cons, Branch.body]

namespace Equation

theorem nodesAll_eq (es : List Equation) : nodesAll es = es.flatMap nodes := by
  induction es with
  | nil => rfl
  | cons e rest ih => rw [nodesAll, ih, List.flatMap_cons]

theorem nodes_choice (kind : ChoiceKind) (branches : List Branch)
    (otherwise : Option (List Equation)) : (choice kind branches otherwise).nodes =
      .choice kind branches otherwise :: (bodiesOf branches otherwise).flatMap nodesAll := by
  cases otherwise with
  | none => simp [nodes, bodiesOf, Branch.nodesAll_eq]
  | some otherwise => simp [nodes, bodiesOf, Branch.nodesAll_eq, List.flatMap_append]

/-- What holds of all nodes of a choice holds of the choice and of all nodes in its bodies. -/
theorem forall_nodes_choice {P : Equation → Prop} {kind : ChoiceKind} {branches : List Branch}
    {otherwise : Option (List Equation)} :
    (∀ n ∈ (choice kind branches otherwise).nodes, P n) ↔
      P (.choice kind branches otherwise) ∧
        ∀ body ∈ bodiesOf branches otherwise, ∀ e ∈ body, ∀ n ∈ e.nodes, P n := by
  simp only [nodes_choice, nodesAll_eq, List.forall_mem_cons, List.mem_flatMap,
    forall_exists_index, and_imp]
  refine and_congr_right fun _ => ⟨fun h body hbody e he n hn => h n body hbody e he hn, ?_⟩
  exact fun h n body hbody e he hn => h body hbody e he n hn

theorem mem_nodes_of_body {kind : ChoiceKind} {branches : List Branch}
    {otherwise : Option (List Equation)} {body : List Equation} {e n : Equation}
    (hbody : body ∈ bodiesOf branches otherwise) (he : e ∈ body) (hn : n ∈ e.nodes) :
    n ∈ (choice kind branches otherwise).nodes :=
  (forall_nodes_choice.mp fun _ hn => hn).2 body hbody e he n hn

theorem self_mem_nodes (e : Equation) : e ∈ e.nodes := by
  cases e with
  | simple lhs rhs => exact List.mem_cons_self
  | loop index start stop step body => exact List.mem_cons_self
  | choice kind branches otherwise =>
    rw [nodes_choice]
    exact List.mem_cons_self

def isLoop : Equation → Bool
  | loop _ _ _ _ _ => true
  | _ => false

def LoopFree (e : Equation) : Prop := ∀ n ∈ e.nodes, n.isLoop = false

/-- An if-equation has an else body and a when-equation has none, and either has a branch. -/
def IsComplete : Equation → Prop
  | choice .ifThen branches otherwise => branches ≠ [] ∧ otherwise.isSome = true
  | choice .whenThen branches otherwise => branches ≠ [] ∧ otherwise = none
  | _ => True

end Equation

end Causality
