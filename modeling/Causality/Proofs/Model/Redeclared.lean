import Causality.Proofs.Equation.NormalForm

/-!
# Expanded equations declared anew

A model can be given some of its expanded continuous equations as the declared ones, in any order,
or all of its expanded equations in the place of those that it declares. It is accepted again: each
of them expands to itself, and the checks do not depend on labels.
-/

namespace Causality

variable {d d' : Draft} {label label' name : String}

/-! ### Checks under another label -/

theorem Draft.checkReference_congr (hvars : d'.vars = d.vars)
    (h : d.checkReference label name = .ok ()) : d'.checkReference label' name = .ok () := by
  unfold Draft.checkReference Draft.owner? Draft.declared? at h ⊢
  rw [hvars]
  by_cases hknown : (ownerOf? d.vars name).isSome ∨ (declaredAs? d.vars name).isSome
  · rw [if_pos hknown]
  · rw [if_neg hknown] at h ⊢
    cases hbase : baseName? name with
    | none => rfl
    | some base =>
      cases hv : declaredAs? d.vars base with
      | none => simp [hv]
      | some v => cases hshape : v.shape <;> simp [hbase, hv, hshape] at h

theorem Draft.checkSubscript_congr (hvars : d'.vars = d.vars) {e : Expr}
    (h : d.checkSubscript label e = .ok ()) : d'.checkSubscript label' e = .ok () := by
  cases e with
  | ref name subscripts => exact Draft.checkReference_congr hvars h
  | _ => rfl

theorem Draft.checkDerivative_congr (hvars : d'.vars = d.vars) {e : Expr}
    (h : d.checkDerivative label e = .ok ()) : d'.checkDerivative label' e = .ok () := by
  unfold Draft.checkDerivative Draft.owner? Draft.declared? at h ⊢
  rw [hvars]
  split at h
  · next name _ =>
    cases hv : ownerOf? d.vars name <|> declaredAs? d.vars name with
    | none => simp
    | some v =>
      by_cases hstate : v.isState = true
      · simp [hstate]
      · simp [hv, hstate] at h
  · cases h
  · rfl

theorem Draft.checkNodes_eq_ok {check : Expr → Except Fault Unit} {es : List Expr} :
    Draft.checkNodes check es = .ok () ↔
      ∀ e ∈ es, ∃ nodes, e.walk = .ok nodes ∧ ∀ n ∈ nodes, check n = .ok () := by
  simp only [Draft.checkNodes, forM_eq_ok, bind_eq_ok]

theorem Draft.checkEquation_iff {l : Labelled} : d.checkEquation l = .ok () ↔
    Draft.checkNodes (d.checkSubscript l.label) l.equation.exprs = .ok () ∧
      Draft.checkNodes (d.checkDerivative l.label) l.equation.exprs = .ok () ∧
        ∃ residuals, l.equation.residuals = .ok residuals := by
  simp only [Draft.checkEquation, bind_eq_ok, pure_eq_ok]
  constructor
  · intro h
    obtain ⟨_, hsubscripts, _, hderivatives, residuals, hresiduals, _⟩ := h
    exact ⟨hsubscripts, hderivatives, residuals, hresiduals⟩
  · intro h
    obtain ⟨hsubscripts, hderivatives, residuals, hresiduals⟩ := h
    exact ⟨(), hsubscripts, (), hderivatives, residuals, hresiduals, trivial⟩

theorem Draft.checkEquation_congr (hvars : d'.vars = d.vars) {e : Equation}
    (h : d.checkEquation ⟨label, e⟩ = .ok ()) : d'.checkEquation ⟨label', e⟩ = .ok () := by
  rw [Draft.checkEquation_iff, Draft.checkNodes_eq_ok, Draft.checkNodes_eq_ok] at h ⊢
  obtain ⟨hsubscripts, hderivatives, hresiduals⟩ := h
  refine ⟨?_, ?_, hresiduals⟩
  · intro x hx
    obtain ⟨nodes, hnodes, hall⟩ := hsubscripts x hx
    exact ⟨nodes, hnodes, fun n hn => Draft.checkSubscript_congr hvars (hall n hn)⟩
  · intro x hx
    obtain ⟨nodes, hnodes, hall⟩ := hderivatives x hx
    exact ⟨nodes, hnodes, fun n hn => Draft.checkDerivative_congr hvars (hall n hn)⟩

/-! ### The model declared anew -/

def Section.numbered (s : Section) (es : List Equation) : List Labelled :=
  es.zipIdx.map fun (e, i) => ⟨s.label ++ "[" ++ toString i ++ "]", e⟩

theorem Section.equation_mem {s : Section} {es : List Equation} {l : Labelled}
    (hl : l ∈ s.numbered es) : l.equation ∈ es := by
  obtain ⟨⟨e, i⟩, hei, rfl⟩ := List.mem_map.mp hl
  exact List.mem_of_getElem? (List.mem_zipIdx_iff_getElem?.mp hei)

theorem Draft.check_eq_ok {expanded : Section → List Labelled} (h : d.elaborate = .ok expanded) :
    d.check = .ok ⟨d, expanded, h⟩ := by
  unfold Draft.check
  split
  · next ex hex =>
    obtain rfl : ex = expanded := Except.ok.inj (hex.symm.trans h)
    rfl
  · next fault hfault => cases hfault.symm.trans h

variable {m : Model} {es : List Equation}

theorem Section.map_equation_numbered (s : Section) (es : List Equation) :
    (s.numbered es).map (·.equation) = es := by
  rw [Section.numbered, List.map_map]
  exact List.zipIdx_map_fst 0 es

theorem Model.expandSection_declared {s : Section} (hnames : ArraysApart m.vars)
    (hvars : d.vars = m.vars) (hes : ∀ e ∈ d.equations s, ∃ l ∈ m.expanded s, l.equation = e) :
    d.expandSection s = .ok (s.numbered (d.equations s)) := by
  have hexpanded := Draft.expandSection_expanded (m.expandSection_eq_ok s)
  have hparts : ((d.equations s).zipIdx.mapM fun (e, i) =>
      d.expandEquation (s.label ++ "[" ++ toString i ++ "]") e) =
      Except.ok ((d.equations s).zipIdx.map fun (e, i) =>
        [⟨s.label ++ "[" ++ toString i ++ "]", e⟩]) := by
    apply mapM_eq_ok_map
    intro p hp
    obtain ⟨l, hl, hle⟩ := hes p.1 (List.fst_mem_of_mem_zipIdx hp)
    obtain ⟨he, hseparate⟩ := hexpanded l hl
    rw [hle] at he hseparate
    exact Draft.expandEquation_of_expanded he (hvars ▸ hseparate hnames) _
  rw [Draft.expandSection, hparts]
  refine congrArg Except.ok ?_
  rw [Section.numbered, ← List.flatMap_def, List.map_eq_flatMap]

/-- The sections of the model with other continuous equations, which are expanded. -/
def Model.sectionsWith (m : Model) (es : List Equation) (s : Section) : List Labelled :=
  if s = .continuous then Section.continuous.numbered es else m.expanded s

theorem Model.sectionsWith_continuous :
    m.sectionsWith es .continuous = Section.continuous.numbered es := by
  simp [Model.sectionsWith]

theorem Model.sectionsWith_of_ne {s : Section} (hs : s ≠ .continuous) :
    m.sectionsWith es s = m.expanded s := by
  simp [Model.sectionsWith, hs]

theorem Model.expandSection_withEquations (hvars : ArraysApart m.vars)
    (hes : ∀ e ∈ es, ∃ l ∈ m.expanded .continuous, l.equation = e) (s : Section) :
    (m.toDraft.withEquations .continuous es).expandSection s = .ok (m.sectionsWith es s) := by
  by_cases hs : s = .continuous
  · subst hs
    have hequations : (m.toDraft.withEquations .continuous es).equations .continuous = es := by
      simp [Draft.withEquations]
    have hdeclared : (m.toDraft.withEquations .continuous es).vars = m.vars := rfl
    have hexpanded := Model.expandSection_declared hvars hdeclared (s := .continuous)
    rw [hequations] at hexpanded
    rw [Model.sectionsWith_continuous]
    exact hexpanded hes
  · have hequations : (m.toDraft.withEquations .continuous es).equations s = m.equations s :=
      if_neg hs
    rw [Model.sectionsWith_of_ne hs, ← m.expandSection_eq_ok s, Draft.expandSection, hequations]
    rfl

theorem Model.elaborate_withEquations (hvars : ArraysApart m.vars)
    (hes : ∀ e ∈ es, ∃ l ∈ m.expanded .continuous, l.equation = e) :
    (m.toDraft.withEquations .continuous es).elaborate = .ok (m.sectionsWith es) := by
  rw [Draft.elaborate_eq_ok]
  refine ⟨m.checkNames_eq_ok, m.checkPositions_eq_ok, m.expandSection_withEquations hvars hes, ?_⟩
  intro s l hl
  by_cases hs : s = .continuous
  · rw [hs, Model.sectionsWith_continuous] at hl
    obtain ⟨k, hk, hke⟩ := hes l.equation (Section.equation_mem hl)
    obtain ⟨label, e⟩ := l
    obtain rfl : k.equation = e := hke
    exact Draft.checkEquation_congr rfl (m.checkEquation_eq_ok hk)
  · rw [Model.sectionsWith_of_ne hs] at hl
    exact Draft.checkEquation_congr rfl (m.checkEquation_eq_ok hl)

/-! ### All equations declared as they are expanded -/

/-- The model with its expanded equations in the place of those that it declares. -/
def Model.normalForm (m : Model) : Draft :=
  { m.toDraft with equations := fun s => (m.expanded s).map (·.equation) }

theorem Model.elaborate_normalForm (hnames : ArraysApart m.vars) :
    m.normalForm.elaborate = .ok fun s => s.numbered (m.normalForm.equations s) := by
  have hes : ∀ s, ∀ e ∈ m.normalForm.equations s, ∃ l ∈ m.expanded s, l.equation = e :=
    fun s e he => List.mem_map.mp he
  rw [Draft.elaborate_eq_ok]
  refine ⟨m.checkNames_eq_ok, m.checkPositions_eq_ok,
    fun s => Model.expandSection_declared hnames rfl (hes s), ?_⟩
  intro s l hl
  obtain ⟨k, hk, hke⟩ := hes s l.equation (Section.equation_mem hl)
  obtain ⟨label, e⟩ := l
  obtain rfl : k.equation = e := hke
  exact Draft.checkEquation_congr rfl (m.checkEquation_eq_ok hk)

end Causality
