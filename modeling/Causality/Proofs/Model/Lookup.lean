import Causality.Proofs.Incidence.References

/-!
# Look-up of names

A name is looked up as a declared name and as a scalar name. Splitting takes the variable that is
declared under the name, a reference means the one that covers it. Both are the same variable
unless one array is called like an element of another: an array is not among its own elements, and
these are all that the check of the names compares.
-/

namespace Causality

variable {m : Model} {v w : Variable} {name id : String}

theorem Variable.name_mem_elementNames (h : v.isArray = false) : v.name ∈ v.elementNames := by
  simp [elementNames, h]

theorem Variable.name_notMem_elementNames (h : v.isArray = true) : v.name ∉ v.elementNames := by
  obtain ⟨extents, hextents⟩ := isArray_iff.mp h
  rw [elementNames_of_array hextents]
  intro hmem
  obtain ⟨indices, _, hindices⟩ := List.mem_map.mp hmem
  exact elementName_ne v.name indices hindices

theorem Model.eq_of_name (hv : v ∈ m.vars) (hw : w ∈ m.vars) (hname : v.name = w.name) : v = w := by
  by_contra hne
  exact (m.distinct hv hw hne).name hname

theorem Model.declared?_of_mem (hv : v ∈ m.vars) (hname : v.name = name) :
    m.declared? name = some v := by
  cases h : m.declared? name with
  | none => exact absurd hname (declaredAs?_eq_none.mp h v hv)
  | some w =>
    obtain ⟨hw, hwname⟩ := declaredAs?_eq_some h
    rw [m.eq_of_name hw hv (hwname.trans hname.symm)]

/-- An equation that relates no arrays has array names inside reductions only. -/
theorem Model.notMem_of_separate {x y : Expr} (h : arraysOf m.vars x y = []) :
    ∀ v ∈ m.vars, v.isArray = true → v.name ∉ x.elementwiseNames ++ y.elementwiseNames := by
  intro v hv harray hname
  obtain ⟨shape, hshape⟩ := Option.isSome_iff_exists.mp harray
  have hmem := mem_arraysOf.mpr ⟨hname, v, m.declared?_of_mem hv rfl, hshape⟩
  rw [h] at hmem
  cases hmem

/-- A scalar covers its name, so no other variable does. -/
theorem Model.eq_of_scalar (hv : v ∈ m.vars) (hw : w ∈ m.vars) (hscalar : w.isArray = false)
    (hname : w.name ∈ v.elementNames) : v = w :=
  m.variable_unique hv hw hname (Variable.name_mem_elementNames hscalar)

theorem Model.referent_eq_ok : m.referent id name = .ok v ↔ m.referent? name = some v := by
  have hreferent : (m.owner? name <|> m.declared? name) = m.referent? name := rfl
  rw [referent, hreferent]
  cases m.referent? name <;> simp

theorem Model.referent?_of_owner? (h : m.owner? name = some v) : m.referent? name = some v := by
  simp [referent?, h]

theorem Model.referent?_of_declared? (howner : m.owner? name = none)
    (h : m.declared? name = some v) : m.referent? name = some v := by
  simp [referent?, howner, h]

/-- Exactly if no array of that name is beside an array with an element of that name, the variable
declared under a name is the one that covers it, where there are both, and the one that references
mean. -/
theorem Model.name_is_unambiguous_iff (m : Model) (name : String) :
    ((∀ v w, m.owner? name = some v → m.declared? name = some w → v = w) ∧
      ∀ id w, m.declared? name = some w → m.referent id name = .ok w) ↔
    ∀ v ∈ m.vars, ∀ w ∈ m.vars, v.isArray = true → w.isArray = true → w.name = name →
      name ∉ v.elementNames := by
  constructor
  · rintro ⟨hagree, _⟩ v hv w hw _ hwarray rfl hmem
    obtain rfl := hagree v w (m.owner?_of_mem hv hmem) (m.declared?_of_mem hw rfl)
    exact Variable.name_notMem_elementNames hwarray hmem
  · intro hapart
    have hagree : ∀ v w, m.owner? name = some v → m.declared? name = some w → v = w := by
      intro v w howner hdeclared
      obtain ⟨hv, hmem⟩ := m.mem_of_owner? howner
      obtain ⟨hw, rfl⟩ := declaredAs?_eq_some hdeclared
      by_cases hwarray : w.isArray = true
      · by_cases hvarray : v.isArray = true
        · exact absurd hmem (hapart v hv w hw hvarray hwarray rfl)
        · -- a scalar is its only element, so the two are declared under one name
          simp only [Variable.elementNames, hvarray, Bool.false_eq_true, if_false,
            List.mem_singleton] at hmem
          have hdeclaredv := m.declared?_of_mem hv hmem.symm
          exact Option.some.inj (hdeclaredv.symm.trans hdeclared)
      · exact m.eq_of_scalar hv hw (Bool.eq_false_iff.mpr hwarray) hmem
    refine ⟨hagree, fun id w hdeclared => referent_eq_ok.mpr ?_⟩
    cases howner : m.owner? name with
    | none => exact Model.referent?_of_declared? howner hdeclared
    | some v =>
      rw [← hagree v w howner hdeclared]
      exact Model.referent?_of_owner? howner

/-- An array, and an array that is called like its first element. -/
def Draft.shadowed : Draft where
  name := "shadowed"
  vars := [.pair "x" x_ne_empty, .pair "x[1]" (by decide)]
  equations _ := []
  description := ""

theorem Draft.elaborate_shadowed :
    Draft.shadowed.elaborate = .ok Draft.shadowed.asDeclared := by
  apply Draft.elaborate_of_sections
  · rfl
  · cbv
  · intro s
    cases s <;> cbv
  · intro s
    cases s <;> cbv

def Model.shadowed : Model where
  toDraft := .shadowed
  expanded := Draft.shadowed.asDeclared
  accepted := Draft.elaborate_shadowed

/-- A scalar in the place of the second array is refused. -/
def Draft.clashing : Draft :=
  { Draft.shadowed with vars := [.pair "x" x_ne_empty, .unknown "x[1]" (by decide)] }

theorem shadowed_name_is_ambiguous :
    Model.shadowed.owner? "x[1]" = some (.pair "x" x_ne_empty) ∧
    Model.shadowed.declared? "x[1]" = some (.pair "x[1]" (by decide)) ∧
    Variable.pair "x" x_ne_empty ≠ Variable.pair "x[1]" (by decide) ∧
    Draft.clashing.elaborate = .error (.clashingElement "x[1]" "x[1]" "x") := by
  refine ⟨rfl, rfl, ?_, by rfl⟩
  intro h
  have hname := congrArg (fun v : Variable => v.name) h
  simp [Variable.pair, Variable.unknown] at hname

end Causality
