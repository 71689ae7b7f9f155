import Causality.Proofs.Expr.Faults

/-!
# References to elements

What becomes of one reference when an expression is resolved or substituted into. A reference with
subscripts becomes one to the element that they name, and its subscripts hold no references. A
reference to a scalar name stays unless something stands for the name.
-/

namespace Causality.Expr

variable {σ : Substitution} {keep : Bool} {e r : Expr} {name : String} {subscripts : List Expr}

/-! ### Parts -/

theorem resolveAll_eq_ok {es rs : List Expr} :
    resolveAll es = .ok rs ↔ List.Forall₂ (fun e r => e.resolve = .ok r) es rs := by
  rw [resolveAll_eq, mapM_eq_ok]

theorem resolve_parts (h : e.resolve = .ok r) (hbare : e.isSubscripted = false) :
    List.Forall₂ (fun part part' => part.resolve = .ok part') e.parts r.parts := by
  cases e with
  | lit value =>
    obtain rfl := Except.ok.inj h
    exact .nil
  | ref name subscripts =>
    cases subscripts with
    | nil =>
      obtain rfl := Except.ok.inj h
      exact .nil
    | cons s rest => cases hbare
  | unary op operand | der operand | pre operand =>
    simp only [resolve, bind_eq_ok, pure_eq_ok] at h
    obtain ⟨x, hx, rfl⟩ := h
    exact .cons hx .nil
  | binary op left right =>
    simp only [resolve, bind_eq_ok, pure_eq_ok] at h
    obtain ⟨x, hx, y, hy, rfl⟩ := h
    exact .cons hx (.cons hy .nil)
  | call function arguments =>
    simp only [resolve, bind_eq_ok, pure_eq_ok] at h
    obtain ⟨xs, hxs, rfl⟩ := h
    exact resolveAll_eq_ok.mp hxs
  | cond condition whenTrue whenFalse =>
    simp only [resolve, bind_eq_ok, pure_eq_ok] at h
    obtain ⟨x, hx, y, hy, z, hz, rfl⟩ := h
    exact .cons hx (.cons hy (.cons hz .nil))
  | foreign kind => cases h

/-- A node is substituted into part by part, unless it is a name or a reduction that is kept. -/
theorem substitute_parts (h : e.substitute σ keep = .ok r) (hname : ∀ name, e ≠ .var name)
    (hwhole : ¬ (keep = true ∧ e.isReduction = true)) :
    List.Forall₂ (fun part part' => part.substitute σ keep = .ok part') e.parts r.parts := by
  cases e with
  | lit value =>
    obtain rfl := Except.ok.inj h
    exact .nil
  | ref name subscripts =>
    cases subscripts with
    | nil => exact absurd rfl (hname name)
    | cons s rest =>
      simp only [substitute, bind_eq_ok, pure_eq_ok] at h
      obtain ⟨x, hx, xs, hxs, rfl⟩ := h
      exact .cons hx (substituteAll_eq_ok.mp hxs)
  | unary op operand | der operand | pre operand =>
    simp only [substitute, bind_eq_ok, pure_eq_ok] at h
    obtain ⟨x, hx, rfl⟩ := h
    exact .cons hx .nil
  | binary op left right =>
    simp only [substitute, bind_eq_ok, pure_eq_ok] at h
    obtain ⟨x, hx, y, hy, rfl⟩ := h
    exact .cons hx (.cons hy .nil)
  | call function arguments =>
    rw [substitute, if_neg hwhole] at h
    simp only [bind_eq_ok, pure_eq_ok] at h
    obtain ⟨xs, hxs, rfl⟩ := h
    exact substituteAll_eq_ok.mp hxs
  | cond condition whenTrue whenFalse =>
    simp only [substitute, bind_eq_ok, pure_eq_ok] at h
    obtain ⟨x, hx, y, hy, z, hz, rfl⟩ := h
    exact .cons hx (.cons hy (.cons hz .nil))
  | foreign kind => cases h

/-! ### Scalar names -/

/-- A name for which nothing stands is still there. -/
theorem mem_nodes_substitute (h : e.substitute σ keep = .ok r) (hσ : σ name = none)
    (hnode : .var name ∈ e.nodes) : .var name ∈ r.nodes := by
  induction e using partsInduction generalizing r with
  | _ e ih =>
    rcases mem_nodes_iff.mp hnode with rfl | ⟨part, hpart, hnode'⟩
    · rw [var, substitute, hσ] at h
      obtain rfl := Except.ok.inj h
      exact self_mem_nodes _
    · by_cases hwhole : keep = true ∧ e.isReduction = true
      · cases e with
        | call function arguments =>
          rw [substitute, if_pos hwhole] at h
          obtain rfl := Except.ok.inj h
          exact hnode
        | _ => cases hwhole.2
      · have hname : ∀ name, e ≠ .var name := by
          rintro name rfl
          cases hpart
        obtain ⟨part', hpart', hsubstitute⟩ :=
          Forall₂.exists_right (substitute_parts h hname hwhole) hpart
        exact mem_nodes_iff.mpr (.inr ⟨part', hpart', ih part hpart hsubstitute hnode'⟩)

/-! ### Subscripts -/

def isRef : Expr → Bool
  | ref _ _ => true
  | _ => false

/-- What has an integer value refers to nothing. -/
theorem isRef_of_evaluateInt (e : Expr) {n : Int} (h : e.evaluateInt = .ok n) :
    ∀ node ∈ e.nodes, node.isRef = false := by
  match e with
  | lit value => exact List.forall_mem_singleton.mpr rfl
  | unary .neg operand =>
    simp only [evaluateInt, bind_eq_ok] at h
    obtain ⟨x, hx, _⟩ := h
    exact List.forall_mem_cons.mpr ⟨rfl, isRef_of_evaluateInt operand hx⟩
  | binary op left right =>
    simp only [evaluateInt, bind_eq_ok] at h
    obtain ⟨x, hx, y, hy, _⟩ := h
    refine List.forall_mem_cons.mpr ⟨rfl, List.forall_mem_append.mpr ⟨?_, ?_⟩⟩
    · exact isRef_of_evaluateInt left hx
    · exact isRef_of_evaluateInt right hy
  | unary .not _ | ref _ _ | call _ _ | cond _ _ _ | der _ | pre _ | foreign _ => cases h
termination_by structural e

theorem element_eq_ok {indices : List Int} (h : element name indices = .ok r) :
    r = .var (elementName name indices) ∧ ∀ n ∈ indices, Causality.isWritable n = true := by
  unfold element at h
  split_ifs at h with hwritable
  exact ⟨(Except.ok.inj h).symm, List.all_eq_true.mp hwritable⟩

theorem evaluateInt_int {n : Int} (h : n.natAbs < Decimal.twos 53) :
    evaluateInt (lit (.int n)) = .ok n := by
  have hlarge : beyondDouble n = false := by
    have hbound : Decimal.twos 53 ≤ Decimal.twos 1024 - Decimal.twos 970 := by decide +kernel
    exact decide_eq_false (Nat.not_le.mpr (Nat.lt_of_lt_of_le h hbound))
  have hprecise : hasDoublePrecision n = true := by
    have hlog : n.natAbs.log2 - 52 = 0 := by
      by_cases hzero : n.natAbs = 0
      · rw [hzero, Nat.log2_zero]
      · have hbits : n.natAbs.log2 < 53 := (Nat.log2_lt hzero).mpr h
        omega
    have htwos : Decimal.twos 0 = 1 := rfl
    rw [hasDoublePrecision, hlog, htwos, Nat.mod_one]
    rfl
  rw [evaluateInt, Number.subscript?, hlarge, hprecise]
  rfl

theorem resolve_eq_ok {indices : List Int} (hne : subscripts ≠ [])
    (hindices : subscripts.mapM evaluateInt = .ok indices)
    (hwritable : indices.all Causality.isWritable = true) :
    (ref name subscripts).resolve = .ok (var (elementName name indices)) := by
  rw [resolve, if_neg (by simpa using hne)]
  refine bind_eq_ok.mpr ⟨indices, hindices, ?_⟩
  rw [element, if_pos hwritable]

/-- Where an expression is resolved, the subscripts in it are integers that can be written, and the
elements that they name take the place of the references. -/
theorem resolve_ref (h : e.resolve = .ok r) (hnode : .ref name subscripts ∈ e.nodes)
    (hne : subscripts ≠ []) : ∃ indices, subscripts.mapM evaluateInt = .ok indices ∧
      (∀ n ∈ indices, Causality.isWritable n = true) ∧
        .var (elementName name indices) ∈ r.nodes := by
  induction e using partsInduction generalizing r with
  | _ e ih =>
    cases hsubscripted : e.isSubscripted with
    | true =>
      cases e with
      | ref base inside =>
        unfold resolve at h
        split at h
        · next hempty =>
          rw [List.isEmpty_iff.mp hempty] at hsubscripted
          cases hsubscripted
        · obtain ⟨indices, hindices, helement⟩ := bind_eq_ok.mp h
          rcases mem_nodes_iff.mp hnode with hself | ⟨s, hs, hinside⟩
          · obtain ⟨rfl, rfl⟩ := ref.inj hself
            obtain ⟨rfl, hwritable⟩ := element_eq_ok helement
            exact ⟨indices, hindices, hwritable, self_mem_nodes _⟩
          · -- A reference inside a subscript would have no value.
            obtain ⟨i, _, hi⟩ := Forall₂.exists_right (mapM_eq_ok.mp hindices) hs
            cases isRef_of_evaluateInt s hi _ hinside
      | _ => cases hsubscripted
    | false =>
      rcases mem_nodes_iff.mp hnode with rfl | ⟨part, hpart, hnode⟩
      · cases subscripts with
        | nil => exact absurd rfl hne
        | cons s rest => cases hsubscripted
      · have hparts := resolve_parts h hsubscripted
        obtain ⟨part', hpart', hresolve⟩ := Forall₂.exists_right hparts hpart
        obtain ⟨indices, hindices, hwritable, hmem⟩ := ih part hpart hresolve hnode
        exact ⟨indices, hindices, hwritable, mem_nodes_iff.mpr (.inr ⟨part', hpart', hmem⟩)⟩

theorem scalar_ref (h : e.scalar Substitution.none = .ok r) (hnode : .ref name subscripts ∈ e.nodes)
    (hne : subscripts ≠ []) : ∃ indices, subscripts.mapM evaluateInt = .ok indices ∧
      (∀ n ∈ indices, Causality.isWritable n = true) ∧
        .var (elementName name indices) ∈ r.nodes := by
  obtain ⟨x, hx, hr⟩ := bind_eq_ok.mp h
  rw [eq_of_substitute_none hx] at hr
  exact resolve_ref hr hnode hne

/-- A foreign node can be substituted into nowhere in an expression. -/
theorem not_foreign_of_substitute (h : e.substitute σ false = .ok r) (kind : String) :
    .foreign kind ∉ e.nodes := by
  induction e using partsInduction generalizing r with
  | _ e ih =>
    intro hnode
    rcases mem_nodes_iff.mp hnode with rfl | ⟨part, hpart, hnode⟩
    · cases h
    · have hname : ∀ name, e ≠ .var name := by
        rintro name rfl
        cases hpart
      have hparts := substitute_parts h hname (fun hwhole => Bool.false_ne_true hwhole.1)
      obtain ⟨part', _, hsubstitute⟩ := Forall₂.exists_right hparts hpart
      exact ih part hpart hsubstitute hnode

/-- What fails for a reason has no scalar form. -/
theorem Fails.scalar_ne_ok {fault : Fault} (h : e.Fails fault) :
    e.scalar Substitution.none ≠ .ok r := by
  intro hr
  cases h with
  | foreign hnode =>
    obtain ⟨x, hx, _⟩ := bind_eq_ok.mp hr
    exact not_foreign_of_substitute hx _ hnode
  | subscript hnode hs hfault =>
    obtain ⟨indices, hindices, _⟩ := scalar_ref hr hnode (List.ne_nil_of_mem hs)
    obtain ⟨n, _, hn⟩ := Forall₂.exists_right (mapM_eq_ok.mp hindices) hs
    cases hfault.symm.trans hn
  | @element name subscripts _ _ hnode hindices hn hwritable =>
    have hne : subscripts ≠ [] := by
      rintro rfl
      obtain rfl := Except.ok.inj hindices
      cases hn
    obtain ⟨indices, hindices', hall, _⟩ := scalar_ref hr hnode hne
    obtain rfl := Except.ok.inj (hindices.symm.trans hindices')
    exact Bool.false_ne_true (hwritable.symm.trans (hall _ hn))

end Causality.Expr
