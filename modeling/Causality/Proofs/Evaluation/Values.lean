import Causality.Proofs.Affine.Freedom
import Mathlib.Algebra.Field.Basic
import Mathlib.Data.Int.Cast.Lemmas

/-!
# Values of expressions

Expressions have values in a field, so that arithmetic is exact. An expression has no value where
it divides by zero. What is no field arithmetic stands for an arbitrary function of the quantities
that it refers to, and so does a bare array; a left limit stands for a constant.
-/

namespace Causality

variable {K : Type} [Field K] {m : Model} {u o : Occurrence} {e a b : Expr} {site : RefSite}

/-! ### Quantities -/

/-- The scalar quantities that a reference stands for, known ones included. -/
def Model.cellsAt (m : Model) (site : RefSite) : List Occurrence :=
  match m.referent? site.name with
  | some v =>
    if site.inPre then []
    else
      (v.scalarNames site.name).map fun element =>
        ⟨element, if site.inDer then .derivative else .value⟩
  | none => []

def Model.cells (m : Model) (e : Expr) : List Occurrence := (e.sites false false).flatMap m.cellsAt

def Model.cellOf? (m : Model) : Expr → Option Occurrence
  | .ref name _ => (m.owner? name).map fun _ => ⟨name, .value⟩
  | .der (.ref name _) => (m.owner? name).map fun _ => ⟨name, .derivative⟩
  | _ => none

theorem Model.mem_cellsAt_self {name : String} {v : Variable} (hv : m.owner? name = some v)
    {subscripts : List Expr} {inDer : Bool} :
    ⟨name, if inDer then .derivative else .value⟩ ∈ m.cellsAt ⟨name, subscripts, inDer, false⟩ := by
  have hcovers := Variable.covers_iff.mpr (m.mem_of_owner? hv).2
  simp [cellsAt, referent?, hv, Variable.scalarNames, hcovers]

theorem Model.mem_cells_of_cellOf? (h : m.cellOf? e = some o) : o ∈ m.cells e := by
  unfold cellOf? at h
  split at h
  · obtain ⟨v, hv, rfl⟩ := Option.map_eq_some_iff.mp h
    exact List.mem_flatMap.mpr ⟨_, List.mem_cons_self, m.mem_cellsAt_self hv⟩
  · obtain ⟨v, hv, rfl⟩ := Option.map_eq_some_iff.mp h
    exact List.mem_flatMap.mpr ⟨_, List.mem_cons_self, m.mem_cellsAt_self hv⟩
  · cases h

theorem Model.cellOf?_of_isOccurrence (hu : m.IsUnknown u) (h : e.isOccurrence u = true) :
    m.cellOf? e = some u := by
  obtain ⟨v, hv, _⟩ := hu
  obtain ⟨name, kind⟩ := u
  unfold Expr.isOccurrence at h
  split at h
  · simp only [Bool.and_eq_true, Bool.not_eq_true', decide_eq_true_eq] at h
    obtain ⟨hkind, rfl⟩ := h
    cases kind with
    | value => simp [cellOf?, hv]
    | derivative => cases hkind
  · simp only [Bool.and_eq_true, decide_eq_true_eq] at h
    obtain ⟨hkind, rfl⟩ := h
    cases kind with
    | value => cases hkind
    | derivative => simp [cellOf?, hv]
  · cases h

theorem Model.cells_binary (op : BinaryOp) (a b : Expr) :
    m.cells (.binary op a b) = m.cells a ++ m.cells b := by
  simp only [Model.cells, Expr.sites, List.flatMap_append]

/-- A quantity that is not recorded as an unknown belongs to a known variable. -/
theorem Model.reads_or_known (h : o ∈ m.cells e) :
    o ∈ m.reads e ∨ ∃ v ∈ m.vars, v.isKnown = true ∧ o.name ∈ v.elementNames := by
  obtain ⟨site, hsite, ho⟩ := List.mem_flatMap.mp h
  unfold cellsAt at ho
  split at ho
  · next v hv =>
    by_cases hknown : v.isKnown = true
    · right
      by_cases hpre : site.inPre = true
      · rw [if_pos hpre] at ho
        cases ho
      · rw [if_neg hpre] at ho
        obtain ⟨element, helement, rfl⟩ := List.mem_map.mp ho
        exact ⟨v, m.mem_of_referent? hv, hknown, Variable.mem_scalarNames helement⟩
    · left
      refine List.mem_flatMap.mpr ⟨site, hsite, ?_⟩
      simpa [readAt, hv, Variable.occurrencesAt, hknown] using ho
  · cases ho

/-- An unknown that an expression refers to is recorded. -/
theorem Model.IsUnknown.mem_reads (hu : m.IsUnknown u) (h : u ∈ m.cells e) : u ∈ m.reads e := by
  rcases m.reads_or_known h with hread | ⟨w, hw, hknown, hname⟩
  · exact hread
  · obtain ⟨v, hv, hunknown⟩ := hu
    obtain rfl : w = v := Option.some.inj ((m.owner?_of_mem hw hname).symm.trans hv)
    rw [hknown] at hunknown
    cases hunknown

/-! ### Interpretations -/

/-- What literals stand for, and what every other node makes of the values of the quantities that
it refers to. A double that is whole stands for that whole number, and a negated double for the
negated value. -/
structure Interpretation (K : Type) [Field K] where
  real : Float → K
  truth : Bool → K
  apply : Expr → List K → K
  real_whole : ∀ x n, wholeValue? x = some n → real x = n
  real_neg : ∀ x, real (-x) = -real x

namespace BinaryOp

def isField : BinaryOp → Bool
  | add | sub | mul | div => true
  | _ => false

/-- The operation of the field. A quotient by zero is undefined. -/
def onField [DecidableEq K] : BinaryOp → K → K → Option K
  | add, x, y => some (x + y)
  | sub, x, y => some (x - y)
  | mul, x, y => some (x * y)
  | div, x, y => if y = 0 then none else some (x / y)
  | _, _, _ => none

theorem exists_onField [DecidableEq K] {op : BinaryOp} (hop : op.isField = true) {x y : K} :
    (∃ v, op.onField x y = some v) ↔ (op = .div → y ≠ 0) := by
  cases op <;> simp_all [onField, isField]

end BinaryOp

/-- What the expression divides by. Divisors inside of other functions are theirs. -/
def Expr.divisors : Expr → List Expr
  | unary .neg operand => divisors operand
  | binary op left right =>
    if op.isField then
      divisors left ++ divisors right ++ if op = .div then [right] else []
    else []
  | _ => []
termination_by structural e => e

namespace Interpretation

variable {I : Interpretation K} {ρ ρ' : Occurrence → K} {x y v : K}

def number (I : Interpretation K) : Number → K
  | .int n => n
  | .real x => I.real x
  | .bool b => I.truth b

/-- Literals have the values that they stand for, and field arithmetic those of the field. Nothing
is said of any other node. -/
structure IsValuation [DecidableEq K] (I : Interpretation K) (val : Expr → Option K) : Prop where
  lit : ∀ n, val (.lit n) = some (I.number n)
  neg : ∀ a, val (.unary .neg a) = (val a).map fun x => -x
  binary : ∀ op a b, op.isField = true →
    val (.binary op a b) = (val a).bind fun x => (val b).bind fun y => op.onField x y

namespace IsValuation

variable [DecidableEq K] {val : Expr → Option K} (h : I.IsValuation val)

include h

theorem binary_eq_some {op : BinaryOp} (hop : op.isField = true) : val (.binary op a b) = some v ↔
    ∃ x y, val a = some x ∧ val b = some y ∧ op.onField x y = some v := by
  rw [h.binary op a b hop]
  simp only [Option.bind_eq_some_iff]
  constructor
  · rintro ⟨x, hx, y, hy, hv⟩
    exact ⟨x, y, hx, hy, hv⟩
  · rintro ⟨x, y, hx, hy, hv⟩
    exact ⟨x, hx, y, hy, hv⟩

theorem of_number? {n : Number} (hn : e.number? = some n) : val e = some (I.number n) := by
  unfold Expr.number? at hn
  split at hn
  · split_ifs at hn
    rw [← Option.some.inj hn]
    exact h.lit _
  · cases hn

theorem of_isNumber {n : Int} (hn : e.isNumber n = true) : val e = some (n : K) := by
  unfold Expr.isNumber at hn
  split at hn
  · next number =>
    simp only [Bool.and_eq_true, Bool.not_eq_true'] at hn
    obtain ⟨hbool, hsame⟩ := hn
    rw [h.lit]
    cases number with
    | int k =>
      obtain rfl : k = n := by simpa [Number.same, Number.operand] using hsame
      rfl
    | real x =>
      have hwhole : wholeValue? x = some n := by
        simpa [Number.same, Number.operand] using hsame
      exact congrArg some (I.real_whole x n hwhole)
    | bool b => cases hbool
  · cases hn

theorem eq_of_isNumber {n : Int} (ha : val a = some x) (hn : a.isNumber n = true) : x = n :=
  Option.some.inj (ha.symm.trans (h.of_isNumber hn))

theorem zero : val .zero = some 0 := by simpa using h.of_isNumber Expr.isNumber_zero

theorem one : val .one = some 1 := by simpa using h.of_isNumber Expr.isNumber_one

end IsValuation

def atom (I : Interpretation K) (m : Model) (ρ : Occurrence → K) (e : Expr) : K :=
  match m.cellOf? e with
  | some o => ρ o
  | none => I.apply e ((m.cells e).map ρ)

theorem atom_congr (h : ∀ o ∈ m.cells e, ρ o = ρ' o) : I.atom m ρ e = I.atom m ρ' e := by
  unfold atom
  split
  · next o ho => exact h o (m.mem_cells_of_cellOf? ho)
  · rw [List.map_congr_left h]

variable [DecidableEq K]

/-- The value of an expression where the quantities have the values `ρ`, unless it divides by
zero. -/
def value (I : Interpretation K) (m : Model) (ρ : Occurrence → K) : Expr → Option K
  | .lit number => some (I.number number)
  | .unary .neg operand => (I.value m ρ operand).map fun x => -x
  | .binary op left right =>
    if op.isField then do op.onField (← I.value m ρ left) (← I.value m ρ right)
    else some (I.atom m ρ (.binary op left right))
  | e => some (I.atom m ρ e)
termination_by structural e => e

theorem isValuation_value (I : Interpretation K) (m : Model) (ρ : Occurrence → K) :
    I.IsValuation (I.value m ρ) where
  lit _ := rfl
  neg _ := rfl
  binary op a b hop := by
    rw [value, if_pos hop]
    rfl

theorem value_binary {op : BinaryOp} (hop : op.isField = true) :
    I.value m ρ (.binary op a b) = some v ↔
      ∃ x y, I.value m ρ a = some x ∧ I.value m ρ b = some y ∧ op.onField x y = some v :=
  (I.isValuation_value m ρ).binary_eq_some hop

/-- A value depends on the quantities that the expression refers to only. -/
theorem value_congr (e : Expr) (h : ∀ o ∈ m.cells e, ρ o = ρ' o) :
    I.value m ρ e = I.value m ρ' e := by
  match e with
  | .lit number => rfl
  | .unary .neg operand =>
    have hoperand := value_congr operand h
    rw [value, value, hoperand]
  | .binary op left right =>
    have hboth := h
    rw [m.cells_binary, List.forall_mem_append] at hboth
    have hleft := value_congr left hboth.1
    have hright := value_congr right hboth.2
    rw [value, value, hleft, hright, atom_congr h]
  | .ref _ _ | .unary .not _ | .call _ _ | .cond _ _ _ | .der _ | .pre _ | .foreign _ =>
    exact congrArg some (atom_congr h)
termination_by structural e

theorem isSome_value_iff (e : Expr) :
    (I.value m ρ e).isSome = true ↔ ∀ d ∈ e.divisors, I.value m ρ d ≠ some 0 := by
  match e with
  | .unary .neg operand =>
    rw [value, Option.isSome_map]
    exact isSome_value_iff operand
  | .binary op left right =>
    have hleft := isSome_value_iff left
    have hright := isSome_value_iff right
    by_cases hop : op.isField = true
    · rw [Expr.divisors, if_pos hop]
      simp only [Option.isSome_iff_exists, value_binary hop, List.forall_mem_append]
        at hleft hright ⊢
      rw [← hleft, ← hright]
      constructor
      · rintro ⟨v, x, y, hx, hy, hv⟩
        refine ⟨⟨⟨x, hx⟩, ⟨y, hy⟩⟩, fun d hd => ?_⟩
        split_ifs at hd with hdiv
        · rw [List.mem_singleton.mp hd, hy, Ne, Option.some.injEq]
          exact (BinaryOp.exists_onField hop).mp ⟨v, hv⟩ hdiv
        · cases hd
      · rintro ⟨⟨⟨x, hx⟩, ⟨y, hy⟩⟩, hown⟩
        obtain ⟨v, hv⟩ := (BinaryOp.exists_onField hop).mpr fun hdiv hzero =>
          hown right (by rw [if_pos hdiv]; exact List.mem_singleton_self right) (hzero ▸ hy)
        exact ⟨v, x, y, hx, hy, hv⟩
    · rw [value, if_neg hop, Expr.divisors, if_neg hop]
      exact iff_of_true rfl (List.forall_mem_nil _)
  | .lit _ | .ref _ _ | .unary .not _ | .call _ _ | .cond _ _ _ | .der _ | .pre _ | .foreign _ =>
    exact iff_of_true rfl (List.forall_mem_nil _)
termination_by structural e

theorem value_of_isOccurrence (hu : m.IsUnknown u) (h : e.isOccurrence u = true) :
    I.value m ρ e = some (ρ u) := by
  have hcell := m.cellOf?_of_isOccurrence hu h
  cases e with
  | ref name subscripts => simp [value, atom, hcell]
  | der operand => simp [value, atom, hcell]
  | _ => cases h

theorem value_zero : I.value m ρ .zero = some 0 := (I.isValuation_value m ρ).zero

theorem value_one : I.value m ρ .one = some 1 := (I.isValuation_value m ρ).one

end Interpretation

end Causality
