import Causality.Proofs.Evaluation.Sequence
import Causality.Proofs.Negation
import Causality.Proofs.Plan.Causal

/-!
# Execution of plans

A plan whose blocks all have solutions is executed by evaluating these in order. The outcome
satisfies every equation, because each solution only uses values that are stored before. It is the
only one to do so, if no coefficient of an unknown vanishes. A solution may hide its coefficient: a
quotient with numerator zero is zero.
-/

namespace Causality

open Causality.Expr (IsRoot Hereditary)

variable {m : Model} {settings : Settings} {p : Plan} {bs rest : List Block} {b : Block}
  {e : Entry} {slot : Occurrence} {t : Expr}

/-- Evaluates the solutions in the order of the blocks, each from what is stored by then. -/
def Plan.execute {K : Type} [Field K] [DecidableEq K] (p : Plan) (I : Interpretation K) (m : Model)
    (ρ : Occurrence → K) : Option (Occurrence → K) :=
  p.blocks.foldlM (Block.run I m) ρ

/-! ### Blocks of a plan -/

/-- The unknowns of the expression are those of the entry, apart from the slot. -/
def Model.Supplies (m : Model) (e : Entry) (slot : Occurrence) (t : Expr) : Prop :=
  ∀ o ∈ m.reads t, o ∈ e.references ∧ o ≠ slot

theorem Model.Supplies.avoids (h : m.Supplies e slot t) (hslots : b.slots = [slot])
    (hlater : ∀ c ∈ rest, ∀ o ∈ e.references, o ∉ c.slots)
    (hunknown : ∀ c ∈ b :: rest, ∀ o ∈ c.slots, m.IsUnknown o) : m.Avoids t (b :: rest) := by
  intro o ho c hc hslot
  obtain ⟨hreference, hne⟩ := h o ((hunknown c hc o hslot).mem_reads ho)
  rcases List.mem_cons.mp hc with rfl | hc
  · rw [hslots] at hslot
    exact hne (List.mem_singleton.mp hslot)
  · exact hlater c hc o hreference hslot

/-- The block solves its equation from unknowns of the equation that are not its slot. -/
def Model.IsSolved (m : Model) (b : Block) : Prop :=
  ∃ e slot lhs rhs numerator divisor, m.Step b e slot lhs rhs numerator divisor ∧
    m.Supplies e slot numerator ∧ m.Supplies e slot divisor

theorem Model.isSolved (h : m.analyze settings = .ok p) (hb : b ∈ p.blocks)
    (hsolvable : b.isSolvable = true) : m.IsSolved b := by
  rw [Block.isSolvable, Bool.and_eq_true] at hsolvable
  obtain ⟨s, hs⟩ := Option.isSome_iff_exists.mp hsolvable.2
  obtain ⟨e, slot, lhs, rhs, hsolves, hcomputes⟩ := m.exists_computes h hb hs
  obtain ⟨f, g, numerator, divisor, hroot, rfl⟩ := hcomputes.root
  obtain ⟨hnumerator, hdivisor⟩ := hroot.inherits (m.hereditary_reads (· ∈ e.references))
    hcomputes.simple.mem_references.1 hcomputes.simple.mem_references.2
  obtain ⟨hnumerator', hdivisor'⟩ := hroot.notMem hcomputes.isUnknown hcomputes.count
  refine ⟨e, slot, lhs, rhs, numerator, divisor, ?_, fun o ho => ⟨hnumerator o ho, ?_⟩,
    fun o ho => ⟨hdivisor o ho, ?_⟩⟩
  · exact ⟨hsolves.entries, hsolves.slots, hsolves.source, hs, hcomputes.isUnknown, f, g, hroot⟩
  · exact fun heq => hnumerator' (heq ▸ ho)
  · exact fun heq => hdivisor' (heq ▸ ho)

theorem Model.staged_of_isSolved (hsolved : ∀ b ∈ bs, m.IsSolved b)
    (hlater : bs.Pairwise fun b c => ∀ e ∈ b.entries, ∀ o ∈ e.references, o ∉ c.slots)
    (hdisjoint : bs.Pairwise fun b c => ∀ o ∈ b.slots, o ∉ c.slots) : m.Staged bs := by
  induction bs with
  | nil => exact .nil
  | cons b rest ih =>
    have hunknown : ∀ c ∈ b :: rest, ∀ o ∈ c.slots, m.IsUnknown o := by
      intro c hc
      obtain ⟨_, _, _, _, _, _, hstep, _⟩ := hsolved c hc
      rw [hstep.slots, List.forall_mem_singleton]
      exact hstep.isUnknown
    rw [List.forall_mem_cons] at hsolved
    rw [List.pairwise_cons] at hlater hdisjoint
    obtain ⟨e, slot, lhs, rhs, numerator, divisor, hstep, hnumerator, hdivisor⟩ := hsolved.1
    have hreferences : ∀ c ∈ rest, ∀ o ∈ e.references, o ∉ c.slots := by
      intro c hc
      refine hlater.1 c hc e ?_
      rw [hstep.entries]
      exact List.mem_singleton_self e
    refine .cons hstep (hnumerator.avoids hstep.slots hreferences hunknown)
      (hdivisor.avoids hstep.slots hreferences hunknown) (fun c hc => ?_)
      (ih hsolved.2 hlater.2 hdisjoint.2)
    refine hdisjoint.1 c hc slot ?_
    rw [hstep.slots]
    exact List.mem_singleton_self slot

theorem Model.staged (h : m.analyze settings = .ok p)
    (hsolvable : ∀ b ∈ p.blocks, b.isSolvable = true) : m.Staged p.blocks := by
  obtain ⟨order, parts, hd⟩ := m.exists_decomposed h
  have hnodup := (m.admits h).isMatching.nodup
  refine m.staged_of_isSolved (fun b hb => m.isSolved h hb (hsolvable b hb))
    (hd.notMem_later hnodup) ?_
  have hslots := hd.perm_slots.nodup_iff.mpr hnodup
  exact (List.nodup_flatMap.mp hslots).2.imp fun hdisjoint o hb hc => hdisjoint hb hc

/-! ### Solutions of the system -/

theorem Model.agreeOff_blocks (h : m.analyze settings = .ok p) (hposed : p.isWellPosed = true)
    {K : Type} {ρ σ : Occurrence → K} :
    AgreeOff p.blocks ρ σ ↔ ∀ o, o ∉ m.slots p.incidence → ρ o = σ o := by
  obtain ⟨order, parts, hd⟩ := m.exists_decomposed h
  have hperfect := m.isPerfect_of_isTotal h ((m.isWellPosed_iff_isTotal h).mp hposed)
  have hperm := hd.perm_slots.trans (hperfect.perm_slots (m.nodup_slots p.incidence))
  have hmem : ∀ o, o ∉ m.slots p.incidence ↔ ∀ c ∈ p.blocks, o ∉ c.slots := by
    intro o
    rw [← hperm.mem_iff, List.mem_flatMap]
    simp
  simp only [AgreeOff, hmem]

/-- Executing a well posed plan whose blocks all have solutions solves the system. If no solution
divides by zero, there is an outcome, which keeps what is known and does not depend on what the
slots held before. If the equations do not divide by zero either, the outcome satisfies each of
them. If moreover no coefficient of an unknown is zero, no other values of the slots do. -/
theorem Model.execution_solves (m : Model) (settings : Settings) (p : Plan)
    (h : m.analyze settings = .ok p) (hposed : p.isWellPosed = true)
    (hsolvable : ∀ b ∈ p.blocks, b.isSolvable = true) (K : Type) [Field K] [DecidableEq K]
    (I : Interpretation K) (hfolds : ∀ b ∈ p.blocks, ∀ k ∈ b.folds, I.IsExact k)
    (ρ₀ : Occurrence → K) (hregular : RegularFrom I m ρ₀ p.blocks) :
    ∃ ρ, p.execute I m ρ₀ = some ρ ∧ (∀ o, o ∉ m.slots p.incidence → ρ o = ρ₀ o) ∧
      (∀ ρ₁ : Occurrence → K, (∀ o, o ∉ m.slots p.incidence → ρ₁ o = ρ₀ o) →
        p.execute I m ρ₁ = some ρ) ∧
      ((∀ e ∈ p.incidence.entries, e.IsRegular I m ρ) →
        (∀ e ∈ p.incidence.entries, e.Holds I m ρ) ∧
        ((∀ b ∈ p.blocks, ∀ d, b.divisor? = some d → I.value m ρ d ≠ some 0) →
          ∀ σ : Occurrence → K, (∀ o, o ∉ m.slots p.incidence → σ o = ρ₀ o) →
            (∀ e ∈ p.incidence.entries, e.Holds I m σ) → σ = ρ)) := by
  have hstaged := m.staged h hsolvable
  obtain ⟨order, parts, hd⟩ := m.exists_decomposed h
  have hperfect := m.isPerfect_of_isTotal h ((m.isWellPosed_iff_isTotal h).mp hposed)
  have hg := (Model.analyze_eq_ok.mp h).incidence
  have hentries : ∀ e, e ∈ p.incidence.entries ↔ ∃ b ∈ p.blocks, e ∈ b.entries := by
    intro e
    rw [← (hd.perm_entries (m.nodup_ids hg) hperfect).mem_iff, List.mem_flatMap]
  simp only [← m.agreeOff_blocks h hposed]
  obtain ⟨ρ, hrun⟩ := hstaged.exists_foldlM hregular
  obtain ⟨hoff, hstored⟩ := hstaged.foldlM_eq_some.mp hrun
  refine ⟨ρ, hrun, hoff, fun ρ₁ hρ₁ => ?_, fun hentry => ?_⟩
  · exact hstaged.foldlM_eq_some.mpr ⟨fun o ho => (hoff o ho).trans (hρ₁ o ho).symm, hstored⟩
  have hholds : ∀ e ∈ p.incidence.entries, e.Holds I m ρ := by
    intro e he
    obtain ⟨b, hb, heb⟩ := (hentries e).mp he
    obtain ⟨e', slot, lhs, rhs, numerator, divisor, hstep, _⟩ := m.isSolved h hb (hsolvable b hb)
    rw [hstep.entries] at heb
    obtain rfl := List.mem_singleton.mp heb
    exact hstep.holds (hfolds b hb) (hentry e he) (hstored b hb)
  refine ⟨hholds, fun hdivisor σ hσ hsolves => ?_⟩
  refine hstaged.eq_of_holds (fun o ho => (hσ o ho).trans (hoff o ho).symm) hfolds hdivisor ?_ ?_
  · exact fun b hb e he => hholds e ((hentries e).mpr ⟨b, hb, he⟩)
  · exact fun b hb e he => hsolves e ((hentries e).mpr ⟨b, hb, he⟩)

/-! ### Outcomes in the rational numbers -/

/-- Whole numbers stand for themselves. All other doubles, and all operations outside of the field,
stand for zero. -/
def Interpretation.rational : Interpretation ℚ where
  real x := ((wholeValue? x).getD 0 : Int)
  truth b := b.toInt
  apply _ _ := 0
  real_whole x n h := by rw [h, Option.getD_some]
  real_neg x := by
    rw [wholeValue?_neg]
    cases wholeValue? x <;> simp

namespace Plan.decaying

theorem step_first : Model.decaying.Step first scale ⟨"y", .value⟩
    (.binary .mul (.lit (.int 2)) (.binary .mul (.lit (.int 3)) (.var "y"))) (.var "x")
    (.var "x") (.lit (.int 6)) where
  entries := rfl
  slots := rfl
  source := rfl
  solution := rfl
  isUnknown := ⟨_, rfl, rfl⟩
  root := ⟨_, _, isRoot_scale⟩

theorem step_second : Model.decaying.Step second decay ⟨"x", .derivative⟩
    (.binary .add (.der (.var "x")) (.var "x")) (.var "y")
    (.binary .sub (.var "y") (.var "x")) .one where
  entries := rfl
  slots := rfl
  source := rfl
  solution := congrArg some quotient_decay.symm
  isUnknown := ⟨_, rfl, rfl⟩
  root := ⟨_, _, isRoot_decay⟩

theorem folds_first : first.folds = [⟨.mul, .int 2, .int 3, .int 6⟩] := by
  rw [step_first.folds_eq, isRoot_scale.rootFolds_eq, Expr.folds_mulRight rfl rfl isAffine_triple,
    Expr.folds_mulRight rfl rfl (.self rfl)]
  simp only [Affine.scaledLeftFolds, Affine.rootFolds, Expr.productFolds_one,
    Expr.productFolds_zero, Expr.differenceFolds_zero]
  rfl

theorem folds_second : second.folds = [] := by
  rw [step_second.folds_eq, isRoot_decay.rootFolds_eq,
    Expr.folds_add rfl (.self rfl) (.free rfl)]
  simp only [Affine.sumFolds, Affine.rootFolds, Expr.sumFolds_zero, Expr.zero_sumFolds,
    Expr.differenceFolds_zero]
  rfl

/-- The values with `x = 6`, from which `y = 1` and `der(x) = -5` follow. -/
def outcome : Occurrence → ℚ :=
  Function.update (Function.update (fun _ => 6) ⟨"y", .value⟩ 1) ⟨"x", .derivative⟩ (-5)

theorem value_x (ρ : Occurrence → ℚ) :
    Interpretation.rational.value .decaying ρ (.var "x") = some (ρ ⟨"x", .value⟩) := rfl

theorem value_y (ρ : Occurrence → ℚ) :
    Interpretation.rational.value .decaying ρ (.var "y") = some (ρ ⟨"y", .value⟩) := rfl

theorem execute_eq :
    Plan.decaying.execute .rational .decaying (fun _ => 6) = some outcome := by
  simp [Plan.execute, Plan.decaying, Block.run, first, second, Interpretation.value, value_x,
    value_y, BinaryOp.isField, BinaryOp.onField, Interpretation.number, outcome]
  norm_num

theorem divisors_ne_zero (ρ : Occurrence → ℚ) :
    ∀ b ∈ Plan.decaying.blocks, ∀ s, b.solution = some s →
      ∀ d ∈ s.divisors, Interpretation.rational.value .decaying ρ d ≠ some 0 := by
  simp [Plan.decaying, first, second, Expr.divisors, BinaryOp.isField, Expr.var,
    Interpretation.value, Interpretation.number]

end Plan.decaying

theorem decaying_execution_solves : ∃ p : Plan, Model.decaying.analyze .standard = .ok p ∧
    p.isWellPosed = true ∧ (∀ b ∈ p.blocks, b.isSolvable = true) ∧
    (∀ b ∈ p.blocks, ∀ k ∈ b.folds, Interpretation.rational.IsExact k) ∧
    RegularFrom .rational .decaying (fun _ => 6) p.blocks ∧
    p.execute .rational .decaying (fun _ => 6) = some Plan.decaying.outcome ∧
    (∀ e ∈ p.incidence.entries, e.IsRegular .rational .decaying Plan.decaying.outcome) ∧
    (∀ b ∈ p.blocks, ∀ d, b.divisor? = some d →
      Interpretation.rational.value .decaying Plan.decaying.outcome d ≠ some 0) ∧
    (∀ e ∈ p.incidence.entries, e.Holds .rational .decaying Plan.decaying.outcome) ∧
    ∀ σ : Occurrence → ℚ, (∀ o, o ∉ Model.decaying.slots p.incidence → σ o = 6) →
      (∀ e ∈ p.incidence.entries, e.Holds .rational .decaying σ) → σ = Plan.decaying.outcome := by
  have hsolvable : ∀ b ∈ Plan.decaying.blocks, b.isSolvable = true := by decide
  have hfolds : ∀ b ∈ Plan.decaying.blocks, ∀ k ∈ b.folds, Interpretation.rational.IsExact k := by
    simp [Plan.decaying, Plan.decaying.folds_first, Plan.decaying.folds_second,
      Interpretation.IsExact, BinaryOp.onField, Interpretation.number]
    norm_num
  have hregular : RegularFrom .rational .decaying (fun _ => 6) Plan.decaying.blocks :=
    fun done b s ρ hreach _ hs => Plan.decaying.divisors_ne_zero ρ b
      (hreach.subset (List.mem_append_right done (List.mem_singleton_self b))) s hs
  have hentry : ∀ e ∈ Plan.decaying.incidence.entries,
      e.IsRegular .rational .decaying Plan.decaying.outcome := by
    simp [Plan.decaying, Plan.decaying.graph, Entry.IsRegular, Plan.decaying.decay,
      Plan.decaying.scale, Expr.divisors, BinaryOp.isField, Expr.var]
  have hdivisor : ∀ b ∈ Plan.decaying.blocks, ∀ d, b.divisor? = some d →
      Interpretation.rational.value .decaying Plan.decaying.outcome d ≠ some 0 := by
    simp [Plan.decaying, Plan.decaying.step_first.divisor?_eq,
      Plan.decaying.step_second.divisor?_eq,
      Interpretation.value_one, Interpretation.value, Interpretation.number]
  obtain ⟨ρ, hrun, _, _, hsolves⟩ := Model.execution_solves .decaying .standard .decaying
    Model.analyze_decaying rfl hsolvable ℚ .rational hfolds _ hregular
  obtain rfl := Option.some.inj (hrun.symm.trans Plan.decaying.execute_eq)
  obtain ⟨hholds, hunique⟩ := hsolves hentry
  exact ⟨_, Model.analyze_decaying, rfl, hsolvable, hfolds, hregular, hrun, hentry, hdivisor,
    hholds, hunique hdivisor⟩

/-! ### A coefficient that is not seen -/

namespace Plan.scaled

def balance : Entry where
  id := "eq[0]"
  origin := .continuous
  position := 0
  source := .simple (.binary .mul (.var "p") (.var "x")) (.lit (.int 0))
  exprs := [.binary .mul (.var "p") (.var "x"), .lit (.int 0)]
  assigned := none
  multiplicity := 1
  references := [⟨"x", .value⟩]

def graph : Incidence := ⟨[balance]⟩

/-- `x := 0.0` -/
def only : Block where
  kind := .scalar
  entries := [balance]
  slots := [⟨"x", .value⟩]
  solution := some .zero

theorem isRoot_balance : IsRoot ⟨"x", .value⟩ (.binary .mul (.var "p") (.var "x")) (.lit (.int 0))
    ⟨.var "p", .zero⟩ ⟨.zero, .lit (.int 0)⟩ (.lit (.int 0)) (.var "p") where
  left := .mulRight rfl rfl (.self rfl)
    (Affine.scaledLeft_eq_ok.mpr ⟨Expr.product_one rfl rfl, Expr.product_zero _⟩)
  right := .free rfl
  divisor_eq := Expr.difference_zero _
  nonzero := rfl
  numerator_eq := Expr.difference_zero _

theorem step_only : Model.scaled.Step only balance ⟨"x", .value⟩
    (.binary .mul (.var "p") (.var "x")) (.lit (.int 0)) (.lit (.int 0)) (.var "p") where
  entries := rfl
  slots := rfl
  source := rfl
  solution := rfl
  isUnknown := ⟨_, rfl, rfl⟩
  root := ⟨_, _, isRoot_balance⟩

theorem folds_only : only.folds = [] := by
  rw [step_only.folds_eq, isRoot_balance.rootFolds_eq, Expr.folds_mulRight rfl rfl (.self rfl)]
  simp only [Affine.scaledLeftFolds, Affine.rootFolds, Expr.productFolds_one,
    Expr.productFolds_zero, Expr.differenceFolds_zero]
  rfl

end Plan.scaled

def Plan.scaled : Plan where
  modelName := "scaled"
  blocks := [scaled.only]
  issues := []
  incidence := scaled.graph
  matching := Model.scaled.matching scaled.graph none

theorem Model.incidence_scaled : Model.scaled.incidence true = .ok Plan.scaled.graph := by cbv

namespace Plan.scaled

theorem pairs_eq :
    (Model.scaled.matching graph none).assignment.pairs = [("eq[0]", ⟨"x", .value⟩)] := by cbv

theorem components_eq :
    graph.components (Model.scaled.matching graph none).assignment = .ok [["eq[0]"]] := by cbv

theorem blocks_eq :
    graph.blocks (Model.scaled.matching graph none).assignment = .ok [only] := by
  refine (Incidence.blocks_eq_ok (Model.scaled.nodup_ids Model.incidence_scaled)).mpr
    ⟨_, [[(balance, ⟨"x", .value⟩)]], components_eq, .cons (.cons ⟨?_, rfl, ?_⟩ .nil) .nil,
      .cons ?_ .nil⟩
  · exact List.mem_singleton_self balance
  · simp [pairs_eq]
  · exact Block.ofMembers_of_solveFor (by decide) rfl isRoot_balance.solveFor_eq

/-- Whatever the solution is, no issue is found. -/
theorem issues_eq (solution : Option Expr) :
    graph.issues (Model.scaled.matching graph none)
      [⟨.scalar, [balance], [⟨"x", .value⟩], solution⟩] = .ok [] := by cbv

end Plan.scaled

theorem Model.analyze_scaled : Model.scaled.analyze .standard = .ok .scaled :=
  Model.analyze_eq_ok.mpr
    ⟨rfl, rfl, Model.incidence_scaled, rfl, Plan.scaled.blocks_eq, Plan.scaled.issues_eq _⟩

/-- Where `p` is zero, `p * x = 0` holds of every `x`, though the solution divides by nothing. -/
theorem scaled_outcome_not_unique : ∃ (p : Plan) (ρ σ : Occurrence → ℚ),
    Model.scaled.analyze .standard = .ok p ∧ p.isWellPosed = true ∧
      (∀ b ∈ p.blocks, b.isSolvable = true) ∧
      (∀ b ∈ p.blocks, ∀ k ∈ b.folds, Interpretation.rational.IsExact k) ∧
      RegularFrom .rational .scaled ρ p.blocks ∧ p.execute .rational .scaled ρ = some ρ ∧
      (∀ o, o ∉ Model.scaled.slots p.incidence → σ o = ρ o) ∧
      (∀ e ∈ p.incidence.entries, e.Holds .rational .scaled ρ) ∧
      (∀ e ∈ p.incidence.entries, e.Holds .rational .scaled σ) ∧ σ ≠ ρ := by
  have hslots : Model.scaled.slots Plan.scaled.graph = [⟨"x", .value⟩] := by cbv
  have hvalue : ∀ ρ : Occurrence → ℚ, Interpretation.rational.value .scaled ρ (.var "p") =
      some (ρ ⟨"p", .value⟩) := fun _ => rfl
  have hvalue' : ∀ ρ : Occurrence → ℚ, Interpretation.rational.value .scaled ρ (.var "x") =
      some (ρ ⟨"x", .value⟩) := fun _ => rfl
  have hholds : ∀ ρ : Occurrence → ℚ, ρ ⟨"p", .value⟩ = 0 →
      ∀ e ∈ Plan.scaled.incidence.entries, e.Holds .rational .scaled ρ := by
    intro ρ hρ e he
    rw [List.mem_singleton.mp he]
    refine ⟨_, _, 0, rfl, (Interpretation.value_binary rfl).mpr
      ⟨_, _, hvalue ρ, hvalue' ρ, ?_⟩, rfl⟩
    rw [BinaryOp.onField, hρ, zero_mul]
  refine ⟨.scaled, fun _ => 0, Function.update (fun _ => 0) ⟨"x", .value⟩ 1, Model.analyze_scaled,
    rfl, by decide, ?_, fun done b s ρ hreach _ hs => ?_, ?_, fun o ho => ?_, hholds _ rfl,
    hholds _ ?_, fun heq => ?_⟩
  · rw [Plan.scaled, List.forall_mem_singleton, Plan.scaled.folds_only]
    exact List.forall_mem_nil _
  · have hb : b ∈ Plan.scaled.blocks :=
      hreach.subset (List.mem_append_right done (List.mem_singleton_self b))
    obtain rfl : b = Plan.scaled.only := List.mem_singleton.mp hb
    obtain rfl := Option.some.inj hs
    exact List.forall_mem_nil _
  · simp [Plan.execute, Plan.scaled, Plan.scaled.only, Block.run, Interpretation.value_zero]
  · have hne : o ≠ ⟨"x", .value⟩ := by
      rintro rfl
      exact ho (hslots ▸ List.mem_singleton_self _)
    rw [Function.update_of_ne hne]
  · rfl
  · have hx := congrFun heq ⟨"x", .value⟩
    rw [Function.update_self] at hx
    exact one_ne_zero hx

end Causality
