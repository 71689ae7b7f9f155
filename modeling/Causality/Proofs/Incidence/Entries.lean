import Causality.Incidence
import Causality.Proofs.Model.Accepted

/-!
# Entries of an incidence

An entry is a residual of an expanded equation of a solved section, with its place in the order of
declaration and the unknowns that its expressions reference.
-/

namespace Causality

def Row.entry (row : Row) (position : Nat) (references : List Occurrence) : Entry where
  id := row.id
  origin := row.origin
  position := position
  source := row.source
  exprs := row.residual.exprs
  assigned := row.residual.assigned
  multiplicity := row.residual.multiplicity
  references := references

def Model.Fills (m : Model) (place : Row × Nat) (e : Entry) : Prop :=
  ∃ references, m.occurrences place.1.id place.1.residual.exprs = .ok references ∧
    place.1.entry place.2 references = e

theorem rowsOf_eq_ok {s : Section} {l : Labelled} {rows : List Row} :
    Model.rowsOf s l = .ok rows ↔ ∃ residuals, l.equation.residuals = .ok residuals ∧
      rows = residuals.zipIdx.map fun r =>
        { id := if residuals.length = 1 then l.label else l.label ++ "#" ++ toString r.2
          origin := s
          source := l.equation
          residual := r.1 } := by
  simp only [Model.rowsOf, bind_eq_ok, pure_eq_ok]
  constructor
  · rintro ⟨residuals, hresiduals, rfl⟩
    exact ⟨residuals, hresiduals, rfl⟩
  · rintro ⟨residuals, hresiduals, rfl⟩
    exact ⟨residuals, hresiduals, rfl⟩

def Model.SectionRows (m : Model) (s : Section) (rows : List Row) : Prop :=
  ∃ parts, List.Forall₂ (fun l rs => rowsOf s l = .ok rs) (m.expanded s) parts ∧
    parts.flatten = rows

theorem Model.rows_eq_ok {m : Model} {includeInitial : Bool} {rows : List Row} :
    m.rows includeInitial = .ok rows ↔ ∃ parts,
      List.Forall₂ m.SectionRows (solvedSections includeInitial) parts ∧
        parts.flatten = rows := by
  simp only [Model.rows, bind_eq_ok, pure_eq_ok, mapM_eq_ok]
  rfl

theorem Model.incidence_eq_ok {m : Model} {includeInitial : Bool} {g : Incidence} :
    m.incidence includeInitial = .ok g ↔ ∃ rows, m.rows includeInitial = .ok rows ∧
      List.Forall₂ m.Fills rows.zipIdx g.entries := by
  simp only [Model.incidence, bind_eq_ok, pure_eq_ok, mapM_eq_ok]
  constructor
  · rintro ⟨rows, hrows, entries, hentries, rfl⟩
    exact ⟨rows, hrows, hentries⟩
  · rintro ⟨rows, hrows, hentries⟩
    exact ⟨rows, hrows, g.entries, hentries, rfl⟩

/-! ### Two models side by side -/

namespace Model

section Alongside

variable {m m' : Model} {R : Labelled → Labelled → Prop} {S : Row → Row → Prop}
  {T : Entry → Entry → Prop} {s : Section} {rows : List Row} {includeInitial : Bool}
  {g : Incidence}

theorem exists_sectionRows (hexpanded : List.Forall₂ R (m.expanded s) (m'.expanded s))
    (hrowsOf : ∀ l l' rows, R l l' → rowsOf s l = .ok rows →
      ∃ rows', rowsOf s l' = .ok rows' ∧ List.Forall₂ S rows rows')
    (h : m.SectionRows s rows) :
    ∃ rows', m'.SectionRows s rows' ∧ List.Forall₂ S rows rows' := by
  obtain ⟨parts, hparts, rfl⟩ := h
  obtain ⟨parts', hparts', hrows⟩ :=
    Forall₂.exists_results hexpanded hparts fun l l' part _ => hrowsOf l l' part
  exact ⟨parts'.flatten, ⟨parts', hparts', rfl⟩, Forall₂.flatten hrows⟩

theorem exists_rows (hexpanded : ∀ s, List.Forall₂ R (m.expanded s) (m'.expanded s))
    (hrowsOf : ∀ s l l' rows, R l l' → rowsOf s l = .ok rows →
      ∃ rows', rowsOf s l' = .ok rows' ∧ List.Forall₂ S rows rows')
    (h : m.rows includeInitial = .ok rows) :
    ∃ rows', m'.rows includeInitial = .ok rows' ∧ List.Forall₂ S rows rows' := by
  obtain ⟨parts, hparts, rfl⟩ := rows_eq_ok.mp h
  have hsections : List.Forall₂ Eq (solvedSections includeInitial)
      (solvedSections includeInitial) := List.forall₂_same.mpr fun _ _ => rfl
  obtain ⟨parts', hparts', hrows⟩ := Forall₂.exists_results hsections hparts (by
    rintro s _ part _ rfl hpart
    exact exists_sectionRows (hexpanded s) (hrowsOf s) hpart)
  exact ⟨parts'.flatten, rows_eq_ok.mpr ⟨parts', hparts', rfl⟩, Forall₂.flatten hrows⟩

/-- The entries correspond if each step from an expanded equation to an entry does. -/
theorem exists_incidence (hexpanded : ∀ s, List.Forall₂ R (m.expanded s) (m'.expanded s))
    (hrowsOf : ∀ s l l' rows, R l l' → rowsOf s l = .ok rows →
      ∃ rows', rowsOf s l' = .ok rows' ∧ List.Forall₂ S rows rows')
    (hfills : ∀ row row' k e, S row row' → m.Fills (row, k) e →
      ∃ e', m'.Fills (row', k) e' ∧ T e e')
    (h : m.incidence includeInitial = .ok g) :
    ∃ g', m'.incidence includeInitial = .ok g' ∧ List.Forall₂ T g.entries g'.entries := by
  obtain ⟨rows, hrows, hentries⟩ := incidence_eq_ok.mp h
  obtain ⟨rows', hrows', hS⟩ := exists_rows hexpanded hrowsOf hrows
  obtain ⟨entries', hentries', hT⟩ :=
    Forall₂.exists_results (Forall₂.zipIdx hS 0) hentries (by
      rintro ⟨row, k⟩ ⟨row', _⟩ e _ ⟨hrow, rfl⟩ he
      exact hfills row row' k e hrow he)
  exact ⟨⟨entries'⟩, incidence_eq_ok.mpr ⟨rows', hrows', hentries'⟩, hT⟩

end Alongside

end Model

end Causality
