import Causality.Proofs.Equation.Residuals
import Causality.Proofs.Expr.Sites
import Causality.Proofs.Incidence.Entries
import Causality.Proofs.Incidence.Slots
import Causality.Proofs.Model.Redeclared

/-!
# References of entries

Which unknowns the expressions of an accepted equation reference. Derivatives are those of states,
so an unknown that is referenced has a slot, unless it is the value of a state.
-/

namespace Causality

variable {m : Model} {v : Variable} {name id : String} {site : RefSite} {o u : Occurrence}
  {os : List Occurrence} {e : Expr} {es : List Expr} {g : Incidence}

/-! ### Names -/

/-- What a name refers to: the variable that covers it, or the array of that name. -/
def Model.referent? (m : Model) (name : String) : Option Variable :=
  m.owner? name <|> m.declared? name

theorem Model.mem_of_owner? (h : m.owner? name = some v) : v ∈ m.vars ∧ name ∈ v.elementNames := by
  refine ⟨List.mem_of_find?_eq_some h, Variable.covers_iff.mp ?_⟩
  simpa using List.find?_some h

theorem Model.mem_of_referent? (h : m.referent? name = some v) : v ∈ m.vars := by
  unfold referent? at h
  cases howner : m.owner? name with
  | some w =>
    obtain rfl : w = v := by simpa [howner] using h
    exact (m.mem_of_owner? howner).1
  | none =>
    have hdeclared : m.declared? name = some v := by simpa [howner] using h
    exact (declaredAs?_eq_some hdeclared).1

theorem Model.variable_unique {w : Variable} (hv : v ∈ m.vars) (hw : w ∈ m.vars)
    (hnv : name ∈ v.elementNames) (hnw : name ∈ w.elementNames) : v = w := by
  by_contra hne
  exact (m.distinct hv hw hne).elements hnv hnw

theorem Model.owner?_of_mem (hv : v ∈ m.vars) (hname : name ∈ v.elementNames) :
    m.owner? name = some v := by
  cases h : m.owner? name with
  | none =>
    have hnone := List.find?_eq_none.mp h v hv
    exact absurd (Variable.covers_iff.mpr hname) hnone
  | some w =>
    obtain ⟨hw, hnw⟩ := m.mem_of_owner? h
    rw [m.variable_unique hw hv hnw hname]

theorem Variable.mem_scalarNames {element : String} (h : element ∈ v.scalarNames name) :
    element ∈ v.elementNames := by
  unfold scalarNames at h
  split_ifs at h with hcovers
  · rw [List.mem_singleton.mp h]
    exact Variable.covers_iff.mp hcovers
  · exact h

/-! ### References -/

/-- The unknowns that a reference records; none if it refers to nothing. -/
def Model.readAt (m : Model) (site : RefSite) : List Occurrence :=
  match m.referent? site.name with
  | some v => v.occurrencesAt site
  | none => []

/-- The unknowns that an expression references, one item for each time. -/
def Model.reads (m : Model) (e : Expr) : List Occurrence := (e.sites false false).flatMap m.readAt

def Model.Resolves (m : Model) (e : Expr) : Prop :=
  ∀ site ∈ e.sites false false, ∃ v, m.referent? site.name = some v

theorem Model.mem_readAt_iff : o ∈ m.readAt site ↔
    ∃ v, m.referent? site.name = some v ∧ site.inPre = false ∧ v.isKnown = false ∧
      o.name ∈ v.scalarNames site.name ∧
        o.kind = if site.inDer then .derivative else .value := by
  unfold readAt
  cases m.referent? site.name with
  | none => simp
  | some v =>
    simp only [Variable.occurrencesAt, Option.some.injEq, exists_eq_left']
    by_cases hskipped : (site.inPre || v.isKnown) = true
    · rw [if_pos hskipped]
      refine iff_of_false List.not_mem_nil ?_
      rintro ⟨hpre, hknown, _⟩
      simp [hpre, hknown] at hskipped
    · obtain ⟨hpre, hknown⟩ : site.inPre = false ∧ v.isKnown = false := by simpa using hskipped
      rw [if_neg hskipped, List.mem_map]
      constructor
      · rintro ⟨element, helement, rfl⟩
        exact ⟨hpre, hknown, helement, rfl⟩
      · rintro ⟨_, _, helement, hkind⟩
        exact ⟨o.name, helement, by rw [← hkind]⟩

theorem Model.mem_readAt (h : o ∈ m.readAt site) : ∃ v, m.referent? site.name = some v ∧
    v.isKnown = false ∧ o.name ∈ v.elementNames ∧ (o.isDerivative = true ↔ site.inDer = true) := by
  obtain ⟨v, hv, _, hknown, hname, hkind⟩ := m.mem_readAt_iff.mp h
  refine ⟨v, hv, hknown, Variable.mem_scalarNames hname, ?_⟩
  rw [Occurrence.isDerivative, hkind]
  cases site.inDer <;> simp

theorem Model.occurrencesAt_eq_ok : m.occurrencesAt id site = .ok os ↔
    (∃ v, m.referent? site.name = some v) ∧ os = m.readAt site := by
  have hreferent : (m.owner? site.name <|> m.declared? site.name) = m.referent? site.name := rfl
  simp only [occurrencesAt, referent, readAt, hreferent, bind_eq_ok, pure_eq_ok]
  cases m.referent? site.name with
  | none => simp
  | some v => simp [eq_comm]

theorem Model.occurrences_eq_ok (hes : ∀ e ∈ es, e.Known) : m.occurrences id es = .ok os ↔
    (∀ e ∈ es, m.Resolves e) ∧ os = es.flatMap m.reads := by
  have hsites : ∀ e ∈ es, ∀ part, (do
      return (← (← e.refs).mapM (m.occurrencesAt id)).flatten : Except Fault (List Occurrence)) =
        .ok part ↔ m.Resolves e ∧ part = m.reads e := by
    intro e he part
    rw [Expr.refs_eq (hes e he)]
    simp only [bind_eq_ok, pure_eq_ok, Except.ok.injEq, exists_eq_left']
    simp only [mapM_eq_ok_iff fun site _ _ => m.occurrencesAt_eq_ok]
    constructor
    · rintro ⟨_, ⟨hresolves, rfl⟩, rfl⟩
      exact ⟨hresolves, rfl⟩
    · rintro ⟨hresolves, rfl⟩
      exact ⟨_, ⟨hresolves, rfl⟩, rfl⟩
  simp only [occurrences, bind_eq_ok, pure_eq_ok, mapM_eq_ok_iff hsites]
  constructor
  · rintro ⟨_, ⟨hresolves, rfl⟩, rfl⟩
    exact ⟨hresolves, rfl⟩
  · rintro ⟨hresolves, rfl⟩
    exact ⟨_, ⟨hresolves, rfl⟩, rfl⟩

/-! ### Expressions of accepted equations -/

variable {label : String}

/-- Only states are differentiated, and a derivative is one of a reference. -/
theorem Model.state_of_der {operand : Expr} {inPre : Bool} (hplain : operand.Plain)
    (h : m.checkDerivative label (.der operand) = .ok ()) (hsite : site ∈ operand.sites true inPre)
    (hv : m.referent? site.name = some v) : v.isState = true := by
  cases operand with
  | ref name subscripts =>
    obtain rfl : subscripts = [] := hplain
    obtain rfl := List.mem_singleton.mp hsite
    have hreferent : (m.owner? name <|> m.declared? name) = some v := hv
    simp only [Draft.checkDerivative, hreferent] at h
    by_contra hstate
    rw [if_neg hstate] at h
    cases h
  | _ => cases h

mutual

theorem Model.state_of_site (e : Expr) (inPre : Bool) (he : e.Plain)
    (hnodes : ∀ n ∈ e.nodes, m.checkDerivative label n = .ok ())
    (hsite : site ∈ e.sites false inPre) (hder : site.inDer = true)
    (hv : m.referent? site.name = some v) : v.isState = true := by
  match e with
  | .lit value => cases hsite
  | .ref name subscripts =>
    obtain rfl : subscripts = [] := he
    obtain rfl := List.mem_singleton.mp hsite
    cases hder
  | .unary op operand =>
    rw [Expr.nodes, List.forall_mem_cons] at hnodes
    exact Model.state_of_site operand inPre he hnodes.2 hsite hder hv
  | .binary op left right =>
    rw [Expr.nodes, List.forall_mem_cons, List.forall_mem_append] at hnodes
    rcases List.mem_append.mp hsite with hsite | hsite
    · exact Model.state_of_site left inPre he.1 hnodes.2.1 hsite hder hv
    · exact Model.state_of_site right inPre he.2 hnodes.2.2 hsite hder hv
  | .call function arguments =>
    rw [Expr.nodes, List.forall_mem_cons] at hnodes
    exact Model.state_of_siteAll arguments inPre he hnodes.2 hsite hder hv
  | .cond condition whenTrue whenFalse =>
    rw [Expr.nodes, List.forall_mem_cons, List.forall_mem_append, List.forall_mem_append] at hnodes
    obtain ⟨_, ⟨hcondition, htrue⟩, hfalse⟩ := hnodes
    rw [Expr.sites, List.mem_append, List.mem_append] at hsite
    obtain (hsite | hsite) | hsite := hsite
    · exact Model.state_of_site condition inPre he.1 hcondition hsite hder hv
    · exact Model.state_of_site whenTrue inPre he.2.1 htrue hsite hder hv
    · exact Model.state_of_site whenFalse inPre he.2.2 hfalse hsite hder hv
  | .der operand =>
    rw [Expr.nodes, List.forall_mem_cons] at hnodes
    have hplain : operand.Plain := he
    exact Model.state_of_der hplain hnodes.1 hsite hv
  | .pre operand =>
    rw [Expr.nodes, List.forall_mem_cons] at hnodes
    exact Model.state_of_site operand true he hnodes.2 hsite hder hv
  | .foreign kind => exact absurd he id
termination_by structural e

theorem Model.state_of_siteAll (es : List Expr) (inPre : Bool) (hes : Expr.PlainAll es)
    (hnodes : ∀ n ∈ Expr.nodesAll es, m.checkDerivative label n = .ok ())
    (hsite : site ∈ Expr.sitesAll false inPre es) (hder : site.inDer = true)
    (hv : m.referent? site.name = some v) : v.isState = true := by
  match es with
  | [] => cases hsite
  | e :: rest =>
    rw [Expr.nodesAll, List.forall_mem_append] at hnodes
    rcases List.mem_append.mp hsite with hsite | hsite
    · exact Model.state_of_site e inPre hes.1 hnodes.1 hsite hder hv
    · exact Model.state_of_siteAll rest inPre hes.2 hnodes.2 hsite hder hv
termination_by structural es

end

/-- An expression in scalar names that refers to declared variables and differentiates states. -/
structure Model.Accepts (m : Model) (e : Expr) : Prop where
  plain : e.Plain
  resolves : m.Resolves e
  states : ∀ site ∈ e.sites false false, site.inDer = true →
    ∀ v, m.referent? site.name = some v → v.isState = true

/-- An unknown that is referenced has a slot, unless it is the value of a state. -/
theorem Model.Accepts.slot_or_state (he : m.Accepts e) (ho : o ∈ m.reads e)
    (hg : o.isDerivative = true → g.differentiates o.name = true) :
    o ∈ m.slots g ∨ o.kind = .value ∧ ∃ v ∈ m.vars, v.isState = true ∧ o.name ∈ v.elementNames := by
  obtain ⟨site, hsite, hread⟩ := List.mem_flatMap.mp ho
  obtain ⟨v, hv, hknown, hname, hder⟩ := m.mem_readAt hread
  have hmem := m.mem_of_referent? hv
  have hslots : o ∈ v.elementSlots g o.name → o ∈ m.slots g := by
    intro hslot
    refine List.mem_flatMap.mpr ⟨v, hmem, ?_⟩
    rw [Variable.slots, if_neg (Bool.eq_false_iff.mp hknown)]
    exact List.mem_flatMap.mpr ⟨o.name, hname, hslot⟩
  obtain ⟨name, kind⟩ := o
  cases kind with
  | derivative =>
    have hstate := he.states site hsite (hder.mp rfl) v hv
    have hdifferentiated := hg rfl
    exact .inl (hslots (by simp_all [Variable.elementSlots]))
  | value =>
    by_cases hstate : v.isState = true
    · exact .inr ⟨rfl, v, hmem, hstate, hname⟩
    · exact .inl (hslots (by simp [Variable.elementSlots, hstate]))

/-! ### Entries -/

theorem Model.expanded_of_mem (m : Model) {s : Section} {l : Labelled} (hl : l ∈ m.expanded s) :
    l.equation.Expanded :=
  (Draft.expandSection_expanded (m.expandSection_eq_ok s) l hl).1

theorem Model.known_of_residual (m : Model) {s : Section} {l : Labelled} (hl : l ∈ m.expanded s)
    {rs : List Residual} {r : Residual} (hrs : l.equation.residuals = .ok rs) (hr : r ∈ rs) :
    ∀ e ∈ r.exprs, e.Known := by
  intro e he
  have hexprs := Equation.exprs_of_residuals l.equation rs hrs r hr e he
  exact (Equation.Expanded.plain l.equation (m.expanded_of_mem hl) e hexprs).known e

structure Model.IsResidual (m : Model) (l : Labelled) (r : Residual) (e : Entry) : Prop where
  expanded : ∃ s, l ∈ m.expanded s
  residuals : ∃ rs, l.equation.residuals = .ok rs ∧ r ∈ rs
  source : e.source = l.equation
  exprs : e.exprs = r.exprs
  assigned : e.assigned = r.assigned
  multiplicity : e.multiplicity = r.multiplicity
  references : m.occurrences e.id r.exprs = .ok e.references

variable {entry : Entry} {includeInitial : Bool}

theorem Model.exists_residual (h : m.incidence includeInitial = .ok g) (he : entry ∈ g.entries) :
    ∃ l r, m.IsResidual l r entry := by
  obtain ⟨rows, hrows, hentries⟩ := m.incidence_eq_ok.mp h
  obtain ⟨⟨row, k⟩, hplace, references, hreferences, rfl⟩ := Forall₂.exists_left hentries he
  have hrow := List.fst_mem_of_mem_zipIdx hplace
  obtain ⟨parts, hparts, rfl⟩ := m.rows_eq_ok.mp hrows
  obtain ⟨sectionRows, hpart, hrow⟩ := List.mem_flatten.mp hrow
  obtain ⟨s, _, lists, hlists, rfl⟩ := Forall₂.exists_left hparts hpart
  obtain ⟨list, hlist, hrow⟩ := List.mem_flatten.mp hrow
  obtain ⟨l, hl, hrowsOf⟩ := Forall₂.exists_left hlists hlist
  obtain ⟨residuals, hresiduals, rfl⟩ := rowsOf_eq_ok.mp hrowsOf
  obtain ⟨⟨r, i⟩, hr, rfl⟩ := List.mem_map.mp hrow
  exact ⟨l, r, ⟨s, hl⟩, ⟨residuals, hresiduals, List.fst_mem_of_mem_zipIdx hr⟩, rfl, rfl, rfl,
    rfl, hreferences⟩

theorem Model.checks_of_mem {s : Section} {l : Labelled} (hl : l ∈ m.expanded s)
    (he : e ∈ l.equation.exprs) : ∀ n ∈ e.nodes,
      m.checkSubscript l.label n = .ok () ∧ m.checkDerivative l.label n = .ok () := by
  have hplain := Equation.Expanded.plain l.equation (m.expanded_of_mem hl) e he
  have hwalk := Expr.walk_eq (hplain.known e)
  obtain ⟨hsubscripts, hderivatives, _⟩ := Draft.checkEquation_iff.mp (m.checkEquation_eq_ok hl)
  obtain ⟨nodes, hnodes, hallSubscripts⟩ := Draft.checkNodes_eq_ok.mp hsubscripts e he
  obtain ⟨nodes', hnodes', hallDerivatives⟩ := Draft.checkNodes_eq_ok.mp hderivatives e he
  obtain rfl := Except.ok.inj (hwalk.symm.trans hnodes)
  obtain rfl := Except.ok.inj (hwalk.symm.trans hnodes')
  exact fun n hn => ⟨hallSubscripts n hn, hallDerivatives n hn⟩

theorem Model.checkDerivative_of_mem {s : Section} {l : Labelled} (hl : l ∈ m.expanded s)
    (he : e ∈ l.equation.exprs) (n : Expr) (hn : n ∈ e.nodes) :
    m.checkDerivative l.label n = .ok () :=
  (m.checks_of_mem hl he n hn).2

theorem Model.accepts_of_mem {s : Section} {l : Labelled} (hl : l ∈ m.expanded s)
    (he : e ∈ l.equation.exprs) (hplain : e.Plain) (hresolves : m.Resolves e) : m.Accepts e where
  plain := hplain
  resolves := hresolves
  states _ hsite hder _ hv :=
    Model.state_of_site e false hplain (m.checkDerivative_of_mem hl he) hsite hder hv

/-- The references of an entry are those in its expressions, all of which are accepted. -/
theorem Model.entry_reads (h : m.incidence includeInitial = .ok g) (he : entry ∈ g.entries) :
    (∀ e ∈ entry.exprs, m.Accepts e) ∧ entry.references = entry.exprs.flatMap m.reads := by
  obtain ⟨l, r, hresidual⟩ := m.exists_residual h he
  obtain ⟨s, hl⟩ := hresidual.expanded
  obtain ⟨rs, hrs, hr⟩ := hresidual.residuals
  obtain ⟨hresolves, hreads⟩ :=
    (m.occurrences_eq_ok (m.known_of_residual hl hrs hr)).mp hresidual.references
  rw [hresidual.exprs]
  refine ⟨fun e he => ?_, hreads⟩
  have hexprs := Equation.exprs_of_residuals l.equation rs hrs r hr e he
  have hplain := Equation.Expanded.plain l.equation (m.expanded_of_mem hl) e hexprs
  exact m.accepts_of_mem hl hexprs hplain (hresolves e he)

structure Model.IsSimple (m : Model) (lhs rhs : Expr) (e : Entry) : Prop where
  left : m.Accepts lhs
  right : m.Accepts rhs
  multiplicity : e.multiplicity = 1
  references : e.references = m.reads lhs ++ m.reads rhs

theorem Model.IsSimple.mem_references {lhs rhs : Expr} (h : m.IsSimple lhs rhs entry) :
    (∀ o ∈ m.reads lhs, o ∈ entry.references) ∧ ∀ o ∈ m.reads rhs, o ∈ entry.references := by
  rw [h.references]
  exact ⟨fun _ => List.mem_append_left _, fun _ => List.mem_append_right _⟩

theorem Model.isSimple_of_source (h : m.incidence includeInitial = .ok g) (he : entry ∈ g.entries)
    {lhs rhs : Expr} (hsource : entry.source = .simple lhs rhs) : m.IsSimple lhs rhs entry := by
  obtain ⟨haccepts, hreads⟩ := m.entry_reads h he
  obtain ⟨l, r, hresidual⟩ := m.exists_residual h he
  obtain ⟨label, equation⟩ := l
  obtain rfl : equation = .simple lhs rhs := hresidual.source.symm.trans hsource
  obtain ⟨rs, hrs, hr⟩ := hresidual.residuals
  rw [Equation.residuals, Except.ok.injEq] at hrs
  subst hrs
  obtain rfl := List.mem_singleton.mp hr
  have hexprs : entry.exprs = [lhs, rhs] := hresidual.exprs
  rw [hexprs, List.forall_mem_cons, List.forall_mem_singleton] at haccepts
  refine ⟨haccepts.1, haccepts.2, hresidual.multiplicity, ?_⟩
  simpa [hexprs] using hreads

end Causality
