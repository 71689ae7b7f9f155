import Causality.Block.Basic
import Causality.Proofs.Evaluation.Forms
import Mathlib.Logic.Function.Basic

/-!
# Blocks in sequence

Blocks are evaluated one after the other, each storing one value. In a sequence where no block uses
its own slot or one of a later block, what is stored stays the value of the solution to the end. So
the outcome is the one assignment to the slots in which each has the value of its solution. It is
also the only one that satisfies the equations, if no coefficient of an unknown vanishes.
-/

namespace Causality

open Causality.Expr (IsRoot Hereditary)

variable {K : Type} {ρ ρ' σ : Occurrence → K} {bs rest : List Block} {b : Block} {e : Entry}
  {slot : Occurrence} {lhs rhs numerator divisor t : Expr}

/-! ### Agreement -/

/-- The assignments agree outside of the slots of the blocks. -/
def AgreeOff (bs : List Block) (ρ σ : Occurrence → K) : Prop :=
  ∀ o, (∀ c ∈ bs, o ∉ c.slots) → ρ o = σ o

theorem agreeOff_tail (hslots : b.slots = [slot]) (hfresh : ∀ c ∈ rest, slot ∉ c.slots) :
    AgreeOff rest ρ σ ↔ AgreeOff (b :: rest) ρ σ ∧ ρ slot = σ slot := by
  constructor
  · exact fun h => ⟨fun o ho => h o (List.forall_mem_cons.mp ho).2, h slot hfresh⟩
  · rintro ⟨h, hslot⟩ o ho
    by_cases heq : o = slot
    · rw [heq, hslot]
    · refine h o (List.forall_mem_cons.mpr ⟨?_, ho⟩)
      rw [hslots]
      exact fun hmem => heq (List.mem_singleton.mp hmem)

theorem agreeOff_update (hslots : b.slots = [slot]) (v : K) :
    AgreeOff (b :: rest) ρ (Function.update σ slot v) ↔ AgreeOff (b :: rest) ρ σ := by
  refine forall_congr' fun o => imp_congr_right fun ho => ?_
  have hne : o ≠ slot := by
    rintro rfl
    refine (List.forall_mem_cons.mp ho).1 ?_
    rw [hslots]
    exact List.mem_singleton_self o
  rw [Function.update_of_ne hne]

variable [Field K] [DecidableEq K] {I : Interpretation K} {m : Model}

/-! ### Evaluation -/

namespace Entry

/-- No divisor in the source equation is zero. -/
def IsRegular (I : Interpretation K) (m : Model) (ρ : Occurrence → K) (e : Entry) : Prop :=
  ∀ lhs rhs, e.source = .simple lhs rhs →
    ∀ d ∈ lhs.divisors ++ rhs.divisors, I.value m ρ d ≠ some 0

def Holds (I : Interpretation K) (m : Model) (ρ : Occurrence → K) (e : Entry) : Prop :=
  ∃ lhs rhs v, e.source = .simple lhs rhs ∧ I.value m ρ lhs = some v ∧ I.value m ρ rhs = some v

end Entry

namespace Block

/-- Stores the value of the solution in the slot. -/
def run (I : Interpretation K) (m : Model) (ρ : Occurrence → K) (b : Block) :
    Option (Occurrence → K) :=
  match b.slots, b.solution with
  | [slot], some s => (I.value m ρ s).map (Function.update ρ slot)
  | _, _ => none

def IsStored (I : Interpretation K) (m : Model) (ρ : Occurrence → K) (b : Block) : Prop :=
  ∃ slot s, b.slots = [slot] ∧ b.solution = some s ∧ I.value m ρ s = some (ρ slot)

/-- The slot and the sides of the equation, if the block has one of each. -/
def equation? (b : Block) : Option (Occurrence × Expr × Expr) :=
  match b.entries, b.slots with
  | [e], [slot] =>
    match e.source with
    | .simple lhs rhs => some (slot, lhs, rhs)
    | _ => none
  | _, _ => none

def folds (b : Block) : List Fold :=
  b.equation?.elim [] fun (u, lhs, rhs) => Expr.rootFolds u lhs rhs

/-- The coefficient of the unknown, which the solution divides by unless its numerator is zero. -/
def divisor? (b : Block) : Option Expr :=
  b.equation?.bind fun (u, lhs, rhs) => Expr.divisor? u lhs rhs

end Block

/-- No solution divides by zero when its block is reached. -/
def RegularFrom (I : Interpretation K) (m : Model) (ρ : Occurrence → K) (bs : List Block) : Prop :=
  ∀ done b s ρ', done ++ [b] <+: bs → done.foldlM (Block.run I m) ρ = some ρ' →
    b.solution = some s → ∀ d ∈ s.divisors, I.value m ρ' d ≠ some 0

/-! ### Steps -/

/-- The expression refers to no slot of the blocks. -/
def Model.Avoids (m : Model) (t : Expr) (bs : List Block) : Prop :=
  ∀ o ∈ m.cells t, ∀ c ∈ bs, o ∉ c.slots

theorem Model.hereditary_avoids (m : Model) (bs : List Block) : Hereditary (m.Avoids · bs) where
  lit _ := List.forall_mem_nil _
  neg _ := Iff.rfl
  binary op a b := by
    unfold Model.Avoids
    rw [m.cells_binary, List.forall_mem_append]

/-- The block solves its equation for its slot: the solution is the quotient of these parts. -/
structure Model.Step (m : Model) (b : Block) (e : Entry) (slot : Occurrence)
    (lhs rhs numerator divisor : Expr) : Prop where
  entries : b.entries = [e]
  slots : b.slots = [slot]
  source : e.source = .simple lhs rhs
  solution : b.solution = some (numerator.quotient divisor)
  isUnknown : m.IsUnknown slot
  root : ∃ f g, IsRoot slot lhs rhs f g numerator divisor

namespace Model.Step

theorem equation?_eq (h : m.Step b e slot lhs rhs numerator divisor) :
    b.equation? = some (slot, lhs, rhs) := by
  rw [Block.equation?, h.entries, h.slots]
  simp only [h.source]

theorem folds_eq (h : m.Step b e slot lhs rhs numerator divisor) :
    b.folds = Expr.rootFolds slot lhs rhs := by
  rw [Block.folds, h.equation?_eq]
  rfl

theorem divisor?_eq (h : m.Step b e slot lhs rhs numerator divisor) :
    b.divisor? = some divisor := by
  obtain ⟨f, g, hroot⟩ := h.root
  rw [Block.divisor?, h.equation?_eq]
  exact hroot.divisor?_eq

theorem run_eq_some (h : m.Step b e slot lhs rhs numerator divisor) : b.run I m ρ = some ρ' ↔
    ∃ v, I.value m ρ (numerator.quotient divisor) = some v ∧ Function.update ρ slot v = ρ' := by
  rw [Block.run, h.slots, h.solution]
  exact Option.map_eq_some_iff

theorem isStored_iff (h : m.Step b e slot lhs rhs numerator divisor) : b.IsStored I m ρ ↔
    I.value m ρ (numerator.quotient divisor) = some (ρ slot) := by
  simp [Block.IsStored, h.slots, h.solution]

/-- The sides differ by the slot times the divisor, less the numerator. -/
theorem values (h : m.Step b e slot lhs rhs numerator divisor)
    (hfolds : ∀ k ∈ b.folds, I.IsExact k) {v w : K} (hlhs : I.value m ρ lhs = some v)
    (hrhs : I.value m ρ rhs = some w) : ∃ x y, I.value m ρ numerator = some x ∧
      I.value m ρ divisor = some y ∧ v - w = ρ slot * y - x := by
  obtain ⟨f, g, hroot⟩ := h.root
  rw [h.folds_eq] at hfolds
  exact hroot.values h.isUnknown.meets trivial trivial hfolds hlhs hrhs

theorem holds (h : m.Step b e slot lhs rhs numerator divisor)
    (hfolds : ∀ k ∈ b.folds, I.IsExact k) (hregular : e.IsRegular I m ρ)
    (hstored : b.IsStored I m ρ) : e.Holds I m ρ := by
  obtain ⟨hlhs, hrhs⟩ := List.forall_mem_append.mp (hregular lhs rhs h.source)
  obtain ⟨v, hv⟩ := Option.isSome_iff_exists.mp ((I.isSome_value_iff lhs).mpr hlhs)
  obtain ⟨w, hw⟩ := Option.isSome_iff_exists.mp ((I.isSome_value_iff rhs).mpr hrhs)
  obtain ⟨x, y, hx, hy, hvalues⟩ := h.values hfolds hv hw
  have hproduct : ρ slot * y = x :=
    (I.isValuation_value m ρ).quotient_mul hx hy (h.isStored_iff.mp hstored)
  have hequal : v = w := by
    rw [hproduct, sub_self] at hvalues
    exact sub_eq_zero.mp hvalues
  exact ⟨lhs, rhs, v, h.source, hv, hequal ▸ hw⟩

/-- Where the equation holds, the slot times the divisor is the numerator. -/
theorem mul_of_holds (h : m.Step b e slot lhs rhs numerator divisor)
    (hfolds : ∀ k ∈ b.folds, I.IsExact k) (hholds : e.Holds I m ρ) :
    ∃ x y, I.value m ρ numerator = some x ∧ I.value m ρ divisor = some y ∧ ρ slot * y = x := by
  obtain ⟨lhs', rhs', v, hsource, hlhs, hrhs⟩ := hholds
  obtain ⟨rfl, rfl⟩ := Equation.simple.inj (h.source.symm.trans hsource)
  obtain ⟨x, y, hx, hy, hvalues⟩ := h.values hfolds hlhs hrhs
  refine ⟨x, y, hx, hy, ?_⟩
  rw [sub_self] at hvalues
  exact sub_eq_zero.mp hvalues.symm

end Model.Step

/-! ### Sequences -/

/-- Each block solves its equation, from quantities that no block from it on determines, and no
slot is determined twice. -/
inductive Model.Staged (m : Model) : List Block → Prop
  | nil : m.Staged []
  | cons {b : Block} {rest : List Block} {e : Entry} {slot : Occurrence}
    {lhs rhs numerator divisor : Expr} (step : m.Step b e slot lhs rhs numerator divisor)
    (avoids_numerator : m.Avoids numerator (b :: rest))
    (avoids_divisor : m.Avoids divisor (b :: rest)) (fresh : ∀ c ∈ rest, slot ∉ c.slots)
    (later : m.Staged rest) : m.Staged (b :: rest)

theorem AgreeOff.value_eq (h : AgreeOff bs ρ σ) (ht : m.Avoids t bs) :
    I.value m ρ t = I.value m σ t := I.value_congr t fun o ho => h o (ht o ho)

theorem RegularFrom.tail (h : RegularFrom I m ρ (b :: rest)) (hrun : b.run I m ρ = some ρ') :
    RegularFrom I m ρ' rest := by
  intro done c s ρ'' hreach hdone
  refine h (b :: done) c s ρ'' (List.cons_prefix_cons.mpr ⟨rfl, hreach⟩) ?_
  rw [List.foldlM_cons, hrun]
  exact hdone

/-- Evaluation only stops where a solution divides by zero. -/
theorem Model.Staged.exists_foldlM (h : m.Staged bs) (hregular : RegularFrom I m ρ bs) :
    ∃ σ, bs.foldlM (Block.run I m) ρ = some σ := by
  induction h generalizing ρ with
  | nil => exact ⟨ρ, rfl⟩
  | @cons b rest e slot lhs rhs numerator divisor hstep _ _ _ _ ih =>
    have hdivisors := hregular [] b _ ρ (List.cons_prefix_cons.mpr ⟨rfl, List.nil_prefix⟩) rfl
      hstep.solution
    obtain ⟨v, hv⟩ := Option.isSome_iff_exists.mp ((I.isSome_value_iff _).mpr hdivisors)
    have hrun : b.run I m ρ = some (Function.update ρ slot v) := hstep.run_eq_some.mpr ⟨v, hv, rfl⟩
    obtain ⟨σ, hσ⟩ := ih (hregular.tail hrun)
    refine ⟨σ, ?_⟩
    rw [List.foldlM_cons, hrun]
    exact hσ

/-- The outcome is the assignment in which each slot has the value of its solution. -/
theorem Model.Staged.foldlM_eq_some (h : m.Staged bs) :
    bs.foldlM (Block.run I m) ρ = some σ ↔ AgreeOff bs σ ρ ∧ ∀ b ∈ bs, b.IsStored I m σ := by
  induction h generalizing ρ with
  | nil =>
    simp only [List.foldlM_nil, AgreeOff, List.not_mem_nil, false_imp_iff, implies_true, and_true,
      forall_const]
    exact ⟨fun h o => congrFun (Option.some.inj h).symm o, fun h => congrArg some (funext h).symm⟩
  | @cons b rest e slot lhs rhs numerator divisor hstep hnumerator hdivisor hfresh _ ih =>
    have havoids := (m.hereditary_avoids (b :: rest)).quotient hnumerator hdivisor
    simp only [List.foldlM_cons, Option.bind_eq_bind, Option.bind_eq_some_iff, hstep.run_eq_some,
      List.forall_mem_cons, hstep.isStored_iff]
    constructor
    · rintro ⟨_, ⟨v, hv, rfl⟩, hrest⟩
      obtain ⟨htail, hstored⟩ := ih.mp hrest
      obtain ⟨hoff, hslot⟩ := (agreeOff_tail hstep.slots hfresh).mp htail
      rw [agreeOff_update hstep.slots] at hoff
      refine ⟨hoff, ?_, hstored⟩
      rw [hoff.value_eq havoids, hv, hslot, Function.update_self]
    · rintro ⟨hoff, hvalue, hstored⟩
      rw [hoff.value_eq havoids] at hvalue
      refine ⟨_, ⟨_, hvalue, rfl⟩, ih.mpr ⟨?_, hstored⟩⟩
      rw [agreeOff_tail hstep.slots hfresh, agreeOff_update hstep.slots, Function.update_self]
      exact ⟨hoff, rfl⟩

/-- Two assignments that satisfy the equations are equal, unless a coefficient vanishes. -/
theorem Model.Staged.eq_of_holds (h : m.Staged bs) (hoff : AgreeOff bs σ ρ)
    (hfolds : ∀ b ∈ bs, ∀ k ∈ b.folds, I.IsExact k)
    (hdivisor : ∀ b ∈ bs, ∀ d, b.divisor? = some d → I.value m ρ d ≠ some 0)
    (hρ : ∀ b ∈ bs, ∀ e ∈ b.entries, e.Holds I m ρ)
    (hσ : ∀ b ∈ bs, ∀ e ∈ b.entries, e.Holds I m σ) : σ = ρ := by
  induction h with
  | nil => exact funext fun o => hoff o (List.forall_mem_nil _)
  | @cons b rest e slot lhs rhs numerator divisor hstep hnumerator hdivisor' hfresh _ ih =>
    rw [List.forall_mem_cons] at hfolds hdivisor hρ hσ
    have he : e ∈ b.entries := by
      rw [hstep.entries]
      exact List.mem_singleton_self e
    obtain ⟨x, y, hx, hy, hproduct⟩ := hstep.mul_of_holds hfolds.1 (hρ.1 e he)
    obtain ⟨x', y', hx', hy', hproduct'⟩ := hstep.mul_of_holds hfolds.1 (hσ.1 e he)
    rw [hoff.value_eq hnumerator, hx] at hx'
    rw [hoff.value_eq hdivisor', hy] at hy'
    obtain rfl := Option.some.inj hx'
    obtain rfl := Option.some.inj hy'
    have hne : y ≠ 0 := by
      rintro rfl
      exact hdivisor.1 divisor hstep.divisor?_eq hy
    have hslot : σ slot = ρ slot := mul_right_cancel₀ hne (hproduct'.trans hproduct.symm)
    have htail := (agreeOff_tail hstep.slots hfresh).mpr ⟨hoff, hslot⟩
    exact ih htail hfolds.2 hdivisor.2 hρ.2 hσ.2

end Causality
