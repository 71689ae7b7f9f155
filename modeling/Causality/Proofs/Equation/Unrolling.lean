import Causality.Proofs.Equation.Residuals
import Causality.Proofs.Expr.Sites

/-!
# What loops stand for

A loop stands for its body written out once for each value of its index, with the value in the place
of the index. Expansion carries the values along instead and puts them in at the end, all at once.
The two agree, also on where they fail, and an inner loop hides an outer one over the same index.
-/

namespace Causality

variable {index : String} {i : Int} {σ : Substitution} {label : String}

/-! ### Values in the place of an index -/

mutual

/-- The expression with a value in the place of each unsubscripted reference to the index. -/
def Expr.instantiate (index : String) (i : Int) : Expr → Expr
  | .lit value => .lit value
  | .ref name [] => if name = index then .lit (.int i) else .ref name []
  | .ref name (s :: rest) =>
    .ref name (Expr.instantiate index i s :: Expr.instantiateAll index i rest)
  | .unary op operand => .unary op (Expr.instantiate index i operand)
  | .binary op left right =>
    .binary op (Expr.instantiate index i left) (Expr.instantiate index i right)
  | .call function arguments => .call function (Expr.instantiateAll index i arguments)
  | .cond condition whenTrue whenFalse =>
    .cond (Expr.instantiate index i condition) (Expr.instantiate index i whenTrue)
      (Expr.instantiate index i whenFalse)
  | .der operand => .der (Expr.instantiate index i operand)
  | .pre operand => .pre (Expr.instantiate index i operand)
  | .foreign kind => .foreign kind
termination_by structural e => e

def Expr.instantiateAll (index : String) (i : Int) : List Expr → List Expr
  | [] => []
  | e :: rest => Expr.instantiate index i e :: Expr.instantiateAll index i rest
termination_by structural es => es

end

mutual

/-- The equation with a value in the place of the index, except in loops over the same index. -/
def Equation.instantiate (index : String) (i : Int) : Equation → Equation
  | .simple lhs rhs => .simple (lhs.instantiate index i) (rhs.instantiate index i)
  | .loop inner start stop step body =>
    if inner = index then .loop inner start stop step body
    else .loop inner start stop step (Equation.instantiateAll index i body)
  | .choice kind branches none => .choice kind (Branch.instantiateAll index i branches) none
  | .choice kind branches (some otherwise) =>
    .choice kind (Branch.instantiateAll index i branches)
      (some (Equation.instantiateAll index i otherwise))
termination_by structural e => e

def Equation.instantiateAll (index : String) (i : Int) : List Equation → List Equation
  | [] => []
  | e :: rest => Equation.instantiate index i e :: Equation.instantiateAll index i rest
termination_by structural es => es

def Branch.instantiateAll (index : String) (i : Int) : List Branch → List Branch
  | [] => []
  | .mk condition body :: rest =>
    .mk (condition.instantiate index i) (Equation.instantiateAll index i body) ::
      Branch.instantiateAll index i rest
termination_by structural bs => bs

end

theorem Substitution.bind_bind_self (σ : Substitution) (name : String) (e e' : Expr) :
    (σ.bind name e).bind name e' = σ.bind name e' := by
  funext n
  unfold bind
  split_ifs <;> rfl

theorem Substitution.bind_comm {name name' : String} (h : name ≠ name') (σ : Substitution)
    (e e' : Expr) : (σ.bind name e).bind name' e' = (σ.bind name' e').bind name e := by
  funext n
  unfold bind
  by_cases hn : n = name
  · rw [if_pos hn, if_pos hn, if_neg (hn ▸ h)]
  · rw [if_neg hn, if_neg hn]

mutual

theorem Expr.substitute_instantiate (index : String) (i : Int) (σ : Substitution) (e : Expr) :
    (e.instantiate index i).substitute σ false =
      e.substitute (σ.bind index (.lit (.int i))) false := by
  match e with
  | .lit value => rfl
  | .ref name [] =>
    rw [instantiate, substitute, Substitution.bind]
    split_ifs <;> rfl
  | .ref name (s :: rest) =>
    simp only [instantiate, substitute, Expr.substitute_instantiate index i σ s,
      Expr.substituteAll_instantiate index i σ rest]
  | .unary op operand =>
    simp only [instantiate, substitute, Expr.substitute_instantiate index i σ operand]
  | .binary op left right =>
    simp only [instantiate, substitute, Expr.substitute_instantiate index i σ left,
      Expr.substitute_instantiate index i σ right]
  | .call function arguments =>
    simp only [instantiate, substitute, Expr.substituteAll_instantiate index i σ arguments,
      Bool.false_eq_true, false_and, if_false]
  | .cond condition whenTrue whenFalse =>
    simp only [instantiate, substitute, Expr.substitute_instantiate index i σ condition,
      Expr.substitute_instantiate index i σ whenTrue,
      Expr.substitute_instantiate index i σ whenFalse]
  | .der operand =>
    simp only [instantiate, substitute, Expr.substitute_instantiate index i σ operand]
  | .pre operand =>
    simp only [instantiate, substitute, Expr.substitute_instantiate index i σ operand]
  | .foreign kind => rfl
termination_by structural e

theorem Expr.substituteAll_instantiate (index : String) (i : Int) (σ : Substitution)
    (es : List Expr) : Expr.substituteAll σ false (Expr.instantiateAll index i es) =
      Expr.substituteAll (σ.bind index (.lit (.int i))) false es := by
  match es with
  | [] => rfl
  | e :: rest =>
    simp only [instantiateAll, substituteAll, Expr.substitute_instantiate index i σ e,
      Expr.substituteAll_instantiate index i σ rest]
termination_by structural es

end

theorem Expr.scalar_instantiate (index : String) (i : Int) (σ : Substitution) (e : Expr) :
    (e.instantiate index i).scalar σ = e.scalar (σ.bind index (.lit (.int i))) := by
  rw [scalar, scalar, Expr.substitute_instantiate]

/-- A label only depends on whether there is an equation to label. -/
theorem roundLabel_instantiateAll (index : String) (i : Int) (label inner : String)
    (body : List Equation) (j : Int) :
    roundLabel label inner (Equation.instantiateAll index i body) j =
      roundLabel label inner body j := by
  cases body <;> rfl

mutual

/-- Instead of carrying a value along, it can be put in beforehand. -/
theorem Equation.expandUnder_instantiate (index : String) (i : Int) (σ : Substitution)
    (label : String) (e : Equation) : (e.instantiate index i).expandUnder σ label =
      e.expandUnder (σ.bind index (.lit (.int i))) label := by
  match e with
  | .simple lhs rhs =>
    simp only [Equation.instantiate, Equation.expandUnder, Expr.scalar_instantiate]
  | .loop inner start stop step body =>
    -- Over the same index the later value wins, over another one the values do not interfere.
    rw [Equation.instantiate]
    split_ifs with hinner
    · simp only [Equation.expandUnder, hinner, Substitution.bind_bind_self]
    · simp only [Equation.expandUnder, Substitution.bind_comm (Ne.symm hinner),
        roundLabel_instantiateAll, Equation.expandAll_instantiate index i _ _ _ body]
  | .choice kind branches none =>
    simp only [Equation.instantiate, Equation.expandUnder,
      Branch.expandAll_instantiate index i σ branches]
  | .choice kind branches (some otherwise) =>
    simp only [Equation.instantiate, Equation.expandUnder,
      Branch.expandAll_instantiate index i σ branches,
      Equation.expandAll_instantiate index i σ _ _ otherwise]
termination_by structural e

theorem Equation.expandAll_instantiate (index : String) (i : Int) (σ : Substitution)
    (label : String) (k : Nat) (es : List Equation) :
    Equation.expandAll σ label k (Equation.instantiateAll index i es) =
      Equation.expandAll (σ.bind index (.lit (.int i))) label k es := by
  match es with
  | [] => rfl
  | e :: rest =>
    simp only [Equation.instantiateAll, Equation.expandAll,
      Equation.expandUnder_instantiate index i σ _ e,
      Equation.expandAll_instantiate index i σ label (k + 1) rest]
termination_by structural es

theorem Branch.expandAll_instantiate (index : String) (i : Int) (σ : Substitution)
    (bs : List Branch) : Branch.expandAll σ (Branch.instantiateAll index i bs) =
      Branch.expandAll (σ.bind index (.lit (.int i))) bs := by
  match bs with
  | [] => rfl
  | .mk condition body :: rest =>
    simp only [Branch.instantiateAll, Branch.expandAll, Expr.scalar_instantiate,
      Equation.expandAll_instantiate index i σ "" 0 body,
      Branch.expandAll_instantiate index i σ rest]
termination_by structural bs

end

/-! ### Bodies written out -/

/-- The numbers from the start on that do not pass the end. -/
theorem Progression.lt_count_upTo {start stop step : Int} (hstep : step ≠ 0) (k : Nat) :
    k < (upTo start stop step).count ↔
      if 0 < step then start + k * step ≤ stop else stop ≤ start + k * step := by
  rw [upTo]
  dsimp only
  split_ifs with hpos
  · rw [Int.lt_toNat, Int.lt_add_one_iff, Int.le_ediv_iff_mul_le hpos]
    omega
  · have hneg : 0 < -step := by omega
    rw [Int.lt_toNat, Int.lt_add_one_iff, Int.le_ediv_iff_mul_le hneg, Int.mul_neg]
    omega

namespace Equation

/-- The equations of a body, of which the first is the `k`-th, with their labels. -/
def numbered (label : String) (k : Nat) (body : List Equation) : List Labelled :=
  (body.zipIdx k).map fun (e, j) => ⟨label ++ "." ++ toString j, e⟩

/-- The body of a loop for one value of its index, which has to be one that labels can hold. -/
def written (label index : String) (body : List Equation) (i : Int) :
    Except Fault (List Labelled) := do
  return numbered (← roundLabel label index body i) 0 (body.map (·.instantiate index i))

def expandEach (ls : List Labelled) : Except Fault (List Labelled) := do
  let parts ← ls.mapM fun l => l.equation.expand l.label
  return parts.flatten

theorem instantiateAll_eq (es : List Equation) :
    instantiateAll index i es = es.map (·.instantiate index i) := by
  induction es with
  | nil => rfl
  | cons e rest ih => rw [instantiateAll, ih, List.map_cons]

theorem expandAll_none (label : String) (k : Nat) (es : List Equation) :
    expandAll Substitution.none label k es = expandEach (numbered label k es) := by
  induction es generalizing k with
  | nil => rfl
  | cons e rest ih =>
    simp [expandAll, ih, expandEach, numbered, expand, List.zipIdx_cons, List.mapM_cons]

def expandRounds (label index : String) (body : List Equation) (values : List Int) :
    Except Fault (List Labelled) := do
  let rounds ← values.mapM fun i => do expandEach (← written label index body i)
  return rounds.flatten

/-- A body as it stands in a choice, where its equations have no labels. -/
def expandBody (body : List Equation) : Except Fault (List Equation) := do
  let ls ← expandEach (numbered "" 0 body)
  return ls.map (·.equation)

end Equation

def Branch.expand (b : Branch) : Except Fault Branch := do
  let condition ← b.condition.scalar Substitution.none
  let body ← Equation.expandBody b.body
  return .mk condition body

theorem Branch.expandAll_none (bs : List Branch) :
    Branch.expandAll Substitution.none bs = bs.mapM Branch.expand := by
  induction bs with
  | nil => rfl
  | cons b rest ih =>
    obtain ⟨condition, body⟩ := b
    rw [Branch.expandAll, List.mapM_cons, ih, Branch.expand, Equation.expandBody,
      Equation.expandAll_none]
    simp [Branch.condition, Branch.body]

namespace Equation

variable {start stop step : Int} {body : List Equation}

theorem expand_loop (hstep : step ≠ 0) : (loop index start stop step body).expand label =
    expandRounds label index body (Progression.upTo start stop step).values := by
  rw [expandRounds, expand, expandUnder, if_neg hstep, Progression.mapM_eq]
  simp only [written, bind_assoc, pure_bind, ← expandAll_none, ← instantiateAll_eq,
    expandAll_instantiate]

theorem expand_choice (kind : ChoiceKind) (branches : List Branch)
    (otherwise : Option (List Equation)) : (choice kind branches otherwise).expand label = (do
      let bs ← branches.mapM Branch.expand
      let o ← otherwise.mapM expandBody
      return [⟨label, .choice kind bs o⟩]) := by
  cases otherwise with
  | none => simp [expand, expandUnder, Branch.expandAll_none]
  | some body => simp [expand, expandUnder, Branch.expandAll_none, expandBody, expandAll_none]

/-- What an equation expands to has neither loops nor subscripts. A loop expands to what the copies
of its body expand to, one for each number from the start on that does not pass the end, and a
choice to one with the bodies expanded. -/
theorem expand_unrolls :
    (∀ (e : Equation) (label : String) (ls : List Labelled), e.expand label = .ok ls → ∀ l ∈ ls,
      (∀ n ∈ l.equation.nodes, n.isLoop = false) ∧
        ∀ x ∈ l.equation.exprs, ∀ n ∈ x.nodes, n.isSubscripted = false) ∧
    (∀ (label index : String) (start stop step : Int) (body : List Equation), step ≠ 0 →
      ∃ count : Nat,
        (∀ k : Nat, k < count ↔
          if 0 < step then start + k * step ≤ stop else stop ≤ start + k * step) ∧
        (loop index start stop step body).expand label =
          expandRounds label index body
            ((List.range count).map fun (k : Nat) => start + k * step)) ∧
    ∀ (label : String) (kind : ChoiceKind) (branches : List Branch)
      (otherwise : Option (List Equation)), (choice kind branches otherwise).expand label = (do
        let bs ← branches.mapM Branch.expand
        let o ← otherwise.mapM expandBody
        return [⟨label, .choice kind bs o⟩]) := by
  refine ⟨fun e label ls h l hl => ?_, fun label index start stop step body hstep => ?_,
    fun label kind branches otherwise => expand_choice kind branches otherwise⟩
  · have hexpanded := expandUnder_expanded e _ label ls h l hl
    exact ⟨hexpanded.loopFree, fun x hx => Expr.Plain.isSubscripted_nodes x
      (Expanded.plain _ hexpanded x hx)⟩
  · refine ⟨_, Progression.lt_count_upTo hstep, ?_⟩
    rw [expand_loop hstep, Progression.values]
    rfl

/-- A body whose first inner loop hides the index `i`, and whose second one runs through nothing. -/
def shadowing : List Equation := [
  .simple (.ref "x" [.var "i"]) (.binary .mul (.var "i") (.var "a")),
  .choice .ifThen
    [.mk (.binary .lt (.var "i") (.var "n")) [.loop "i" 7 8 1 [
      .simple (.ref "y" [.binary .add (.var "i") (.lit (.int 1))]) (.var "i")]]]
    (some [.loop "j" 2 1 1 [.simple (.var "j") (.var "i")]])]

/-- A loop over this body from 3 down to 1 in steps of 2: the names show which values are put in. -/
theorem shadowing_unrolls : ∃ ls, (loop "i" 3 1 (-2) shadowing).expand "e" = .ok ls ∧
    expandRounds "e" "i" shadowing [3, 1] = .ok ls ∧
    ls.map (·.label) = ["e[i=3].0", "e[i=3].1", "e[i=1].0", "e[i=1].1"] ∧
    (ls.flatMap fun l => l.equation.exprs.flatMap (·.elementwiseNames)) =
      ["x[3]", "a", "n", "y[8]", "y[9]", "x[1]", "a", "n", "y[8]", "y[9]"] ∧
    ∀ l ∈ ls, l.equation.LoopFree := by
  have hfacts : ((loop "i" 3 1 (-2) shadowing).expand "e").toOption.map (fun ls =>
      (ls.map (·.label), ls.flatMap fun l => l.equation.exprs.flatMap (·.elementwiseNames))) =
      some (["e[i=3].0", "e[i=3].1", "e[i=1].0", "e[i=1].1"],
        ["x[3]", "a", "n", "y[8]", "y[9]", "x[1]", "a", "n", "y[8]", "y[9]"]) := by
    decide +kernel
  obtain ⟨hresults, hloops, _⟩ := expand_unrolls
  obtain ⟨count, hcount, hexpand⟩ := hloops "e" "i" 3 1 (-2) shadowing (by decide)
  have hsecond := (hcount 1).mpr (by decide)
  have hthird := mt (hcount 2).mp (by decide)
  obtain rfl : count = 2 := by omega
  cases h : (loop "i" 3 1 (-2) shadowing).expand "e" with
  | error fault =>
    rw [h] at hfacts
    cases hfacts
  | ok ls =>
    rw [h] at hfacts
    obtain ⟨hlabels, hnames⟩ := Prod.mk.inj (Option.some.inj hfacts)
    exact ⟨ls, rfl, hexpand.symm.trans h, hlabels, hnames, fun l hl => (hresults _ _ _ h l hl).1⟩

end Equation

end Causality
