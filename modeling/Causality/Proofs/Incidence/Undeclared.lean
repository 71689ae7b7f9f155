import Causality.Proofs.Equation.Exposed
import Causality.Proofs.Expr.Contexts
import Causality.Proofs.Model.Lookup

/-!
# Undeclared names

The checks of a model leave undeclared names alone. They are met when references are resolved, in
the expressions that residuals show. That is the only way in which the incidence of a model can
fail.
-/

namespace Causality

variable {m : Model} {includeInitial : Bool} {rows : List Row} {x : Expr} {name : String}

/-! ### Rows -/

theorem Model.exists_residuals {s : Section} {l : Labelled} (hl : l ∈ m.expanded s) :
    ∃ rs, l.equation.residuals = .ok rs :=
  (Draft.checkEquation_iff.mp (m.checkEquation_eq_ok hl)).2.2

theorem Model.rows_succeed (m : Model) (includeInitial : Bool) :
    ∃ rows, m.rows includeInitial = .ok rows := by
  have hrowsOf : ∀ s, ∀ l ∈ m.expanded s, ∃ rows, rowsOf s l = .ok rows := by
    intro s l hl
    obtain ⟨residuals, hresiduals⟩ := m.exists_residuals hl
    exact ⟨_, rowsOf_eq_ok.mpr ⟨residuals, hresiduals, rfl⟩⟩
  have hsections : ∀ s ∈ solvedSections includeInitial, ∃ rows, m.SectionRows s rows := by
    intro s _
    obtain ⟨parts, hparts⟩ := exists_forall₂ (hrowsOf s)
    exact ⟨parts.flatten, parts, hparts, rfl⟩
  obtain ⟨parts, hparts⟩ := exists_forall₂ hsections
  exact ⟨parts.flatten, Model.rows_eq_ok.mpr ⟨parts, hparts, rfl⟩⟩

theorem Model.map_residual_rowsOf {s : Section} {l : Labelled} (h : rowsOf s l = .ok rows) :
    l.equation.residuals = .ok (rows.map (·.residual)) := by
  obtain ⟨rs, hrs, rfl⟩ := rowsOf_eq_ok.mp h
  rw [hrs, List.map_map]
  exact congrArg Except.ok (List.zipIdx_map_fst 0 rs).symm

theorem Model.exists_row_iff (h : m.rows includeInitial = .ok rows) {r : Residual} :
    (∃ row ∈ rows, row.residual = r) ↔ ∃ s ∈ solvedSections includeInitial, ∃ l ∈ m.expanded s,
      ∃ rs, l.equation.residuals = .ok rs ∧ r ∈ rs := by
  obtain ⟨parts, hparts, rfl⟩ := Model.rows_eq_ok.mp h
  constructor
  · rintro ⟨row, hrow, rfl⟩
    obtain ⟨part, hpart, hrow⟩ := List.mem_flatten.mp hrow
    obtain ⟨s, hs, lists, hlists, rfl⟩ := Forall₂.exists_left hparts hpart
    obtain ⟨list, hlist, hrow⟩ := List.mem_flatten.mp hrow
    obtain ⟨l, hl, hrowsOf⟩ := Forall₂.exists_left hlists hlist
    exact ⟨s, hs, l, hl, _, Model.map_residual_rowsOf hrowsOf, List.mem_map_of_mem hrow⟩
  · rintro ⟨s, hs, l, hl, rs, hrs, hr⟩
    obtain ⟨part, hpart, lists, hlists, rfl⟩ := Forall₂.exists_right hparts hs
    obtain ⟨list, hlist, hrowsOf⟩ := Forall₂.exists_right hlists hl
    obtain rfl := Except.ok.inj (hrs.symm.trans (Model.map_residual_rowsOf hrowsOf))
    obtain ⟨row, hrow, rfl⟩ := List.mem_map.mp hr
    exact ⟨row, List.mem_flatten.mpr ⟨_, hpart, List.mem_flatten.mpr ⟨_, hlist, hrow⟩⟩, rfl⟩

theorem Model.known_of_row (h : m.rows includeInitial = .ok rows) {row : Row} (hrow : row ∈ rows) :
    ∀ e ∈ row.residual.exprs, e.Known := by
  obtain ⟨s, _, l, hl, rs, hrs, hr⟩ := (m.exists_row_iff h).mp ⟨row, hrow, rfl⟩
  exact m.known_of_residual hl hrs hr

/-- The rows show what the expanded equations expose. -/
theorem Model.mem_exprs_rows_iff (h : m.rows includeInitial = .ok rows) :
    (∃ row ∈ rows, x ∈ row.residual.exprs) ↔
      ∃ s ∈ solvedSections includeInitial, ∃ l ∈ m.expanded s, l.equation.Exposes x := by
  constructor
  · rintro ⟨row, hrow, hx⟩
    obtain ⟨s, hs, l, hl, rs, hrs, hr⟩ := (m.exists_row_iff h).mp ⟨row, hrow, rfl⟩
    exact ⟨s, hs, l, hl, (Equation.exists_residual_iff hrs).mp ⟨_, hr, hx⟩⟩
  · rintro ⟨s, hs, l, hl, hx⟩
    obtain ⟨rs, hrs⟩ := m.exists_residuals hl
    obtain ⟨r, hr, hx⟩ := (Equation.exists_residual_iff hrs).mpr hx
    obtain ⟨row, hrow, rfl⟩ := (m.exists_row_iff h).mpr ⟨s, hs, l, hl, rs, hrs, hr⟩
    exact ⟨row, hrow, hx⟩

/-! ### Faults -/

/-- The fault names a symbol that is no variable of the model. -/
def Model.Misses (m : Model) (fault : Fault) : Prop :=
  ∃ id symbol, fault = .undeclared id symbol ∧ m.owner? symbol = none ∧ m.declared? symbol = none

theorem Model.referent_misses (m : Model) (id name : String) :
    FailsOnly m.Misses (m.referent id name) := by
  unfold referent
  split
  · exact .ok _
  · next hnone => exact .error ⟨id, name, rfl, by simpa using hnone⟩

theorem Model.occurrences_misses {id : String} {es : List Expr} (hes : ∀ e ∈ es, e.Known) :
    FailsOnly m.Misses (m.occurrences id es) := by
  apply FailsOnly.bind
  · apply FailsOnly.mapM
    intro e he
    rw [Expr.refs_eq (hes e he)]
    apply FailsOnly.ok_bind
    apply FailsOnly.bind
    · apply FailsOnly.mapM
      intro site _
      exact (m.referent_misses id site.name).bind fun _ _ => .pure _
    · exact fun _ _ => .pure _
  · exact fun _ _ => .pure _

theorem Model.incidence_misses (m : Model) (includeInitial : Bool) :
    FailsOnly m.Misses (m.incidence includeInitial) := by
  obtain ⟨rows, hrows⟩ := m.rows_succeed includeInitial
  unfold incidence
  rw [hrows]
  apply FailsOnly.ok_bind
  apply FailsOnly.bind
  · apply FailsOnly.mapM
    intro place hplace
    have hknown := Model.known_of_row hrows (List.fst_mem_of_mem_zipIdx hplace)
    exact (Model.occurrences_misses hknown).bind fun _ _ => .pure _
  · exact fun _ _ => .pure _

/-! ### Which names fail -/

/-- The name is that of no variable and of no element. -/
def Model.IsUndeclared (m : Model) (name : String) : Prop :=
  ∀ v ∈ m.vars, v.name ≠ name ∧ name ∉ v.elementNames

theorem Model.isUndeclared_iff :
    m.IsUndeclared name ↔ m.owner? name = none ∧ m.declared? name = none := by
  constructor
  · intro h
    constructor
    · exact List.find?_eq_none.mpr fun v hv hcovers => (h v hv).2 (Variable.covers_iff.mp hcovers)
    · exact declaredAs?_eq_none.mpr fun v hv => (h v hv).1
  · rintro ⟨howner, hdeclared⟩ v hv
    refine ⟨fun hname => ?_, fun hmem => ?_⟩
    · simp [m.declared?_of_mem hv hname] at hdeclared
    · simp [m.owner?_of_mem hv hmem] at howner

/-- Exactly the references to undeclared names are not resolved. -/
theorem Model.resolves_iff : m.Resolves x ↔
    ∀ name subscripts, .ref name subscripts ∈ x.nodes → ¬ m.IsUndeclared name := by
  have hreferent : ∀ name, (∃ v, m.referent? name = some v) ↔ ¬ m.IsUndeclared name := by
    intro name
    rw [m.isUndeclared_iff, ← Option.isSome_iff_exists, referent?]
    cases m.owner? name <;> cases m.declared? name <;> simp
  simp only [Resolves, hreferent]
  constructor
  · intro h name subscripts hnode
    obtain ⟨site, hsite, rfl⟩ := Expr.exists_site_iff.mpr ⟨subscripts, hnode⟩
    exact h site hsite
  · intro h site hsite
    obtain ⟨subscripts, hnode⟩ := Expr.exists_site_iff.mp ⟨site, hsite, rfl⟩
    exact h site.name subscripts hnode

theorem Model.exists_incidence_iff (h : m.rows includeInitial = .ok rows) :
    (∃ g, m.incidence includeInitial = .ok g) ↔
      ∀ row ∈ rows, ∀ x ∈ row.residual.exprs, m.Resolves x := by
  constructor
  · rintro ⟨g, hg⟩ row hrow
    obtain ⟨rows', hrows', hentries⟩ := m.incidence_eq_ok.mp hg
    obtain rfl := Except.ok.inj (h.symm.trans hrows')
    obtain ⟨i, hi⟩ := List.mem_iff_getElem?.mp hrow
    obtain ⟨_, _, references, hreferences, _⟩ := Forall₂.exists_right hentries
      (List.mem_zipIdx_iff_getElem?.mpr (show rows[(row, i).2]? = some (row, i).1 from hi))
    exact ((m.occurrences_eq_ok (m.known_of_row h hrow)).mp hreferences).1
  · intro hresolves
    have hfills : ∀ place ∈ rows.zipIdx, ∃ e, m.Fills place e := by
      rintro ⟨row, i⟩ hplace
      have hrow : row ∈ rows := List.fst_mem_of_mem_zipIdx hplace
      exact ⟨_, _, (m.occurrences_eq_ok (m.known_of_row h hrow)).mpr ⟨hresolves row hrow, rfl⟩, rfl⟩
    obtain ⟨entries, hentries⟩ := exists_forall₂ hfills
    exact ⟨⟨entries⟩, m.incidence_eq_ok.mpr ⟨rows, h, hentries⟩⟩

/-- The incidence fails exactly if an exposed expression references an undeclared name, and then the
fault names such a name. The only expressions that are not exposed are the conditions of choices in
which no body has a simple equation, at any depth. -/
theorem Model.undeclared_names_fail (m : Model) (includeInitial : Bool) :
    ((∃ id name, m.incidence includeInitial = .error (.undeclared id name)) ↔
      ∃ s ∈ solvedSections includeInitial, ∃ l ∈ m.expanded s, ∃ x, l.equation.Exposes x ∧
        ∃ name subscripts, .ref name subscripts ∈ x.nodes ∧ m.IsUndeclared name) ∧
    ((∃ g, m.incidence includeInitial = .ok g) ∨ ∃ id name,
      m.incidence includeInitial = .error (.undeclared id name) ∧ m.IsUndeclared name) ∧
    ∀ s, ∀ l ∈ m.expanded s, ∀ x ∈ l.equation.exprs, ¬ l.equation.Exposes x →
      ∃ kind branches otherwise, .choice kind branches otherwise ∈ l.equation.nodes ∧
        x ∈ branches.map (·.condition) ∧
          ∀ q ∈ (Equation.choice kind branches otherwise).nodes, q.isSimple = false := by
  obtain ⟨rows, hrows⟩ := m.rows_succeed includeInitial
  have houtcome : (∃ g, m.incidence includeInitial = .ok g) ∨ ∃ id name,
      m.incidence includeInitial = .error (.undeclared id name) ∧ m.IsUndeclared name := by
    refine (m.incidence_misses includeInitial).succeeds_or.imp id ?_
    rintro ⟨_, hfault, id, name, rfl, hmissing⟩
    exact ⟨id, name, hfault, m.isUndeclared_iff.mpr hmissing⟩
  refine ⟨⟨?_, ?_⟩, houtcome, fun s l hl x hx hhidden => ?_⟩
  · rintro ⟨id, name, hfault⟩
    by_contra hnone
    obtain ⟨g, hg⟩ := (m.exists_incidence_iff hrows).mpr fun row hrow x hx => by
      obtain ⟨s, hs, l, hl, hexposes⟩ := (m.mem_exprs_rows_iff hrows).mp ⟨row, hrow, hx⟩
      refine m.resolves_iff.mpr fun name subscripts hnode hundeclared => hnone ?_
      exact ⟨s, hs, l, hl, x, hexposes, name, subscripts, hnode, hundeclared⟩
    rw [hg] at hfault
    cases hfault
  · rintro ⟨s, hs, l, hl, x, hexposes, name, subscripts, hnode, hundeclared⟩
    rcases houtcome with hok | ⟨id, symbol, hfault, _⟩
    · obtain ⟨row, hrow, hx⟩ := (m.mem_exprs_rows_iff hrows).mpr ⟨s, hs, l, hl, hexposes⟩
      have hresolves := (m.exists_incidence_iff hrows).mp hok row hrow x hx
      exact absurd hundeclared (m.resolves_iff.mp hresolves name subscripts hnode)
    · exact ⟨id, symbol, hfault⟩
  · obtain ⟨n, hn, hown⟩ := l.equation.exists_node x hx
    have hempty : ∀ q ∈ n.nodes, q.isSimple = false := by
      intro q hq
      by_contra hsimple
      exact hhidden ⟨n, hn, hown, q, hq, Bool.not_eq_false _ ▸ hsimple⟩
    cases n with
    | simple lhs rhs => cases hempty _ (Equation.self_mem_nodes _)
    | loop index start stop step body => cases hown
    | choice kind branches otherwise => exact ⟨kind, branches, otherwise, hn, hown, hempty⟩

/-- The equation `if q > 0 then` nothing `else` nothing, beside `y = 1`. -/
def Draft.idle : Draft where
  name := "idle"
  vars := [.unknown "y" y_ne_empty]
  equations
    | .continuous => [
        .choice .ifThen [.mk (.binary .gt (.var "q") (.lit (.int 0))) []] (some []),
        .simple (.var "y") (.lit (.int 1))]
    | _ => []
  description := ""

theorem Draft.elaborate_idle : Draft.idle.elaborate = .ok Draft.idle.asDeclared := by
  apply Draft.elaborate_of_sections
  · cbv
  · cbv
  · intro s
    cases s <;> cbv
  · intro s
    cases s <;> cbv

def Model.idle : Model where
  toDraft := .idle
  expanded := Draft.idle.asDeclared
  accepted := Draft.elaborate_idle

/-- The condition references an undeclared name, and nothing fails. -/
theorem idle_condition_is_unseen :
    (∃ l ∈ Model.idle.expanded .continuous, ∃ x ∈ l.equation.exprs, .var "q" ∈ x.nodes) ∧
    Model.idle.IsUndeclared "q" ∧
    (Model.idle.incidence false).map (·.ids) = .ok ["eq[1]"] := by
  have hnode : Expr.var "q" ∈ (Expr.binary .gt (.var "q") (.lit (.int 0))).nodes := by
    simp [Expr.nodes, Expr.var]
  refine ⟨⟨_, List.mem_cons_self, _, List.mem_cons_self, hnode⟩, ?_, by cbv⟩
  exact Model.isUndeclared_iff.mpr ⟨by rfl, by rfl⟩

end Causality
