import Causality.Proofs.Affine.Forms
import Causality.Proofs.Incidence.References

/-!
# Solutions are free of their unknown

The search for an unknown compares names, while an incidence counts what references stand for, the
elements of bare arrays included. Whatever the search finds is counted. So if an unknown is counted
once only, and some side of the equation mentions it, nothing else can stand for it.
-/

namespace Causality

open Causality.Expr (IsAffine IsRoot Hereditary)

variable {m : Model} {u : Occurrence} {e lhs rhs numerator divisor : Expr} {f g : Affine}

def Model.IsUnknown (m : Model) (u : Occurrence) : Prop :=
  ∃ v, m.owner? u.name = some v ∧ v.isKnown = false

theorem Model.isUnknown_of_mem_slots {incidence : Incidence} (h : u ∈ m.slots incidence) :
    m.IsUnknown u := by
  obtain ⟨v, hv, hslot⟩ := List.mem_flatMap.mp h
  refine ⟨v, m.owner?_of_mem hv (Variable.name_of_mem_slots hslot), ?_⟩
  by_contra hknown
  rw [Variable.slots, if_pos (Bool.not_eq_false _ ▸ hknown)] at hslot
  cases hslot

theorem Model.mem_readAt_self (hu : m.IsUnknown u) {subscripts : List Expr} {inDer : Bool}
    (hder : inDer = u.isDerivative) : u ∈ m.readAt ⟨u.name, subscripts, inDer, false⟩ := by
  obtain ⟨v, hv, hknown⟩ := hu
  have hreferent : m.referent? u.name = some v := by simp [Model.referent?, hv]
  have hcovers := Variable.covers_iff.mpr (m.mem_of_owner? hv).2
  obtain ⟨name, kind⟩ := u
  subst hder
  cases kind <;>
    simp [Model.readAt, hreferent, Variable.occurrencesAt, hknown, Variable.scalarNames, hcovers,
      Occurrence.isDerivative]

mutual

/-- Below a derivative only derivatives are looked for. -/
theorem Model.mem_readAt_of_mentions (hu : m.IsUnknown u) (e : Expr) (inDer : Bool)
    (hder : inDer = true → u.isDerivative = true) (h : e.mentions u = .ok true) :
    u ∈ (e.sites inDer false).flatMap m.readAt := by
  match e with
  | .lit value => cases h
  | .ref name subscripts =>
    rw [Expr.sites, List.flatMap_cons, List.mem_append]
    rw [Expr.mentions] at h
    by_cases hunknown : Expr.isOccurrence u (.ref name subscripts) = true
    · simp only [Expr.isOccurrence, Bool.and_eq_true, Bool.not_eq_true', decide_eq_true_eq]
        at hunknown
      obtain ⟨hvalue, rfl⟩ := hunknown
      refine .inl (m.mem_readAt_self hu ?_)
      cases inDer with
      | true => exact (hder rfl).symm
      | false => exact hvalue.symm
    · rw [if_neg hunknown] at h
      exact .inr (Model.mem_readAt_of_mentionsAny hu subscripts inDer hder h)
  | .unary op operand => exact Model.mem_readAt_of_mentions hu operand inDer hder h
  | .binary op left right =>
    rw [Expr.sites, List.flatMap_append, List.mem_append]
    rcases Expr.mentions_binary.mp h with hleft | ⟨_, hright⟩
    · exact .inl (Model.mem_readAt_of_mentions hu left inDer hder hleft)
    · exact .inr (Model.mem_readAt_of_mentions hu right inDer hder hright)
  | .call function arguments =>
    exact Model.mem_readAt_of_mentionsAny hu arguments inDer hder h
  | .cond condition whenTrue whenFalse =>
    rw [Expr.sites, List.flatMap_append, List.flatMap_append, List.mem_append, List.mem_append]
    obtain ⟨found, hcondition, h⟩ := bind_eq_ok.mp h
    cases found with
    | true => exact .inl (.inl (Model.mem_readAt_of_mentions hu condition inDer hder hcondition))
    | false =>
      obtain ⟨found, htrue, h⟩ := bind_eq_ok.mp h
      cases found with
      | true => exact .inl (.inr (Model.mem_readAt_of_mentions hu whenTrue inDer hder htrue))
      | false => exact .inr (Model.mem_readAt_of_mentions hu whenFalse inDer hder h)
  | .der operand =>
    rw [Expr.sites]
    rw [Expr.mentions] at h
    by_cases hunknown : Expr.isOccurrence u (.der operand) = true
    · match operand with
      | .ref name subscripts =>
        simp only [Expr.isOccurrence, Bool.and_eq_true, decide_eq_true_eq] at hunknown
        obtain ⟨hderivative, rfl⟩ := hunknown
        rw [Expr.sites, List.flatMap_cons, List.mem_append]
        exact .inl (m.mem_readAt_self hu hderivative.symm)
    · rw [if_neg hunknown] at h
      split_ifs at h with hderivative
      · exact Model.mem_readAt_of_mentions hu operand true (fun _ => hderivative) h
      · cases h
  | .pre operand => cases h
  | .foreign kind => cases h
termination_by structural e

theorem Model.mem_readAt_of_mentionsAny (hu : m.IsUnknown u) (es : List Expr) (inDer : Bool)
    (hder : inDer = true → u.isDerivative = true) (h : Expr.mentionsAny u es = .ok true) :
    u ∈ (Expr.sitesAll inDer false es).flatMap m.readAt := by
  match es with
  | [] => cases h
  | e :: rest =>
    rw [Expr.sitesAll, List.flatMap_append, List.mem_append]
    obtain ⟨found, hfirst, h⟩ := bind_eq_ok.mp h
    cases found with
    | true => exact .inl (Model.mem_readAt_of_mentions hu e inDer hder hfirst)
    | false => exact .inr (Model.mem_readAt_of_mentionsAny hu rest inDer hder h)
termination_by structural es

end

theorem Model.mem_reads_of_mentions (hu : m.IsUnknown u) (h : e.mentions u = .ok true) :
    u ∈ m.reads e := m.mem_readAt_of_mentions hu e false (fun h => by cases h) h

/-! ### One place for the unknown -/

theorem Model.hereditary_sites (q : RefSite → Prop) :
    Hereditary fun e => ∀ site ∈ e.sites false false, q site where
  lit _ := List.forall_mem_nil _
  neg _ := Iff.rfl
  binary _ _ _ := List.forall_mem_append

theorem Model.reads_binary (op : BinaryOp) (a b : Expr) :
    m.reads (.binary op a b) = m.reads a ++ m.reads b := by
  simp only [Model.reads, Expr.sites, List.flatMap_append]

theorem Model.hereditary_reads (q : Occurrence → Prop) :
    Hereditary fun e => ∀ o ∈ m.reads e, q o where
  lit _ := List.forall_mem_nil _
  neg _ := Iff.rfl
  binary op a b := by rw [m.reads_binary, List.forall_mem_append]

theorem Model.hereditary_notMem (u : Occurrence) : Hereditary fun e => u ∉ m.reads e where
  lit _ := List.not_mem_nil
  neg _ := Iff.rfl
  binary op a b := by rw [m.reads_binary, List.mem_append, not_or]

/-- The unknown is not referenced, or at one place only, where it is mentioned. -/
def Model.Single (m : Model) (u : Occurrence) (e : Expr) : Prop :=
  u ∉ m.reads e ∨ e.mentions u = .ok true ∧ (m.reads e).count u ≤ 1

theorem Model.Single.notMem (h : m.Single u e) (habsent : e.mentions u = .ok false) :
    u ∉ m.reads e := by
  rcases h with hmem | ⟨hmentioned, _⟩
  · exact hmem
  · cases habsent.symm.trans hmentioned

/-- Of two expressions that share one place for the unknown, one is free of it. -/
theorem Model.single_of_mentioned (hu : m.IsUnknown u) (hlhs : lhs.mentions u = .ok true)
    (hcount : (m.reads lhs).count u + (m.reads rhs).count u ≤ 1) :
    m.Single u lhs ∧ u ∉ m.reads rhs := by
  have hpos := List.count_pos_iff.mpr (m.mem_reads_of_mentions hu hlhs)
  exact ⟨.inr ⟨hlhs, by omega⟩, List.count_eq_zero.mp (by omega)⟩

theorem Model.single_of_or (hu : m.IsUnknown u)
    (hmentioned : lhs.mentions u = .ok true ∨ rhs.mentions u = .ok true)
    (hcount : (m.reads lhs).count u + (m.reads rhs).count u ≤ 1) :
    m.Single u lhs ∧ m.Single u rhs := by
  rcases hmentioned with hlhs | hrhs
  · obtain ⟨hleft, hright⟩ := m.single_of_mentioned hu hlhs hcount
    exact ⟨hleft, .inl hright⟩
  · obtain ⟨hright, hleft⟩ := m.single_of_mentioned hu hrhs (by rwa [Nat.add_comm])
    exact ⟨.inl hleft, hright⟩

theorem Model.Single.operands (hu : m.IsUnknown u) {op : BinaryOp}
    (h : m.Single u (.binary op lhs rhs)) : m.Single u lhs ∧ m.Single u rhs := by
  unfold Model.Single at h
  rw [m.reads_binary, List.mem_append, not_or, List.count_append] at h
  rcases h with ⟨hleft, hright⟩ | ⟨hmentioned, hcount⟩
  · exact ⟨.inl hleft, .inl hright⟩
  · exact m.single_of_or hu ((Expr.mentions_binary.mp hmentioned).imp_right And.right) hcount

theorem Expr.IsAffine.notMem (hu : m.IsUnknown u) (h : IsAffine u e f) (he : m.Single u e) :
    u ∉ m.reads f.coefficient ∧ u ∉ m.reads f.constant :=
  h.parts (m.hereditary_notMem u) (fun _ he => he) (fun _ _ _ he => he.operands hu)
    (fun _ he habsent => he.notMem habsent) he

/-- If the equation has one place for the unknown, the root and its divisor have none. -/
theorem Expr.IsRoot.notMem (hu : m.IsUnknown u) (h : IsRoot u lhs rhs f g numerator divisor)
    (hcount : (m.reads lhs ++ m.reads rhs).count u ≤ 1) :
    u ∉ m.reads numerator ∧ u ∉ m.reads divisor := by
  rw [List.count_append] at hcount
  obtain ⟨hlhs, hrhs⟩ := m.single_of_or hu h.mentioned hcount
  obtain ⟨hf, hf'⟩ := h.left.notMem hu hlhs
  obtain ⟨hg, hg'⟩ := h.right.notMem hu hrhs
  have hp := m.hereditary_notMem u
  exact ⟨hp.difference hg' hf' h.numerator_eq, hp.difference hf hg h.divisor_eq⟩

end Causality
