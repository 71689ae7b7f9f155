import Causality.Proofs.Incidence.Entries
import Causality.Proofs.Model.Redeclared

/-!
# Incidence after a change of order

The continuous entries come first in an incidence. If each of them is the only one of its equation,
their equations can be declared in another order: the entries get the ids and the positions of
their new places, and all others stay as they are.
-/

namespace Causality

def Entry.placed (p : Entry × Nat) : Entry :=
  { p.1 with id := Section.continuous.label ++ "[" ++ toString p.2 ++ "]", position := p.2 }

def Entry.placedRow (p : Entry × Nat) : Row where
  id := Section.continuous.label ++ "[" ++ toString p.2 ++ "]"
  origin := p.1.origin
  source := p.1.source
  residual := ⟨p.1.assigned, p.1.exprs, p.1.multiplicity⟩

namespace Model

variable {m m' : Model} {includeInitial : Bool} {g : Incidence} {id id' : String}

/-! ### References under another label -/

theorem referent_congr (hnames : SameNames m.vars m'.vars) {name : String} {v : Variable}
    (h : m.referent id name = .ok v) : m'.referent id' name = .ok v := by
  unfold referent Draft.owner? Draft.declared? at h ⊢
  rw [hnames.owner, hnames.declared]
  split at h
  · exact h
  · cases h

theorem occurrencesAt_congr (hnames : SameNames m.vars m'.vars) {site : RefSite}
    {os : List Occurrence}
    (h : m.occurrencesAt id site = .ok os) : m'.occurrencesAt id' site = .ok os := by
  simp only [occurrencesAt, bind_eq_ok] at h ⊢
  obtain ⟨v, hv, hos⟩ := h
  exact ⟨v, referent_congr hnames hv, hos⟩

theorem occurrences_congr (hnames : SameNames m.vars m'.vars) {es : List Expr}
    {os : List Occurrence}
    (h : m.occurrences id es = .ok os) : m'.occurrences id' es = .ok os := by
  simp only [occurrences, bind_eq_ok, mapM_eq_ok] at h ⊢
  obtain ⟨parts, hparts, hos⟩ := h
  refine ⟨parts, hparts.imp ?_, hos⟩
  intro e part hpart
  obtain ⟨sites, hsites, lists, hlists, hpart⟩ := hpart
  exact ⟨sites, hsites, lists, hlists.imp fun _ _ h => occurrencesAt_congr hnames h, hpart⟩

theorem fills_congr (hnames : SameNames m.vars m'.vars) {place : Row × Nat} {e : Entry}
    (h : m.Fills place e) : m'.Fills place e := by
  obtain ⟨references, hreferences, he⟩ := h
  exact ⟨references, occurrences_congr hnames hreferences, he⟩

/-! ### Sections of an incidence -/

def laterSections (includeInitial : Bool) : List Section :=
  .discrete :: if includeInitial then [.initial] else []

theorem solvedSections_eq :
    solvedSections includeInitial = .continuous :: laterSections includeInitial :=
  rfl

theorem ne_continuous_of_mem {s : Section} (h : s ∈ laterSections includeInitial) :
    s ≠ .continuous := by
  unfold laterSections at h
  rintro rfl
  cases includeInitial <;> simp at h

theorem SectionRows.origin {s : Section} {rows : List Row} (h : m.SectionRows s rows) :
    ∀ row ∈ rows, row.origin = s := by
  obtain ⟨parts, hparts, rfl⟩ := h
  intro row hrow
  obtain ⟨part, hpart, hrow⟩ := List.mem_flatten.mp hrow
  obtain ⟨l, _, hl⟩ := Forall₂.exists_left hparts hpart
  obtain ⟨residuals, _, rfl⟩ := rowsOf_eq_ok.mp hl
  obtain ⟨r, _, rfl⟩ := List.mem_map.mp hrow
  rfl

def LaterRows (m : Model) (includeInitial : Bool) (rows : List Row) : Prop :=
  ∃ parts, List.Forall₂ m.SectionRows (laterSections includeInitial) parts ∧ parts.flatten = rows

theorem rows_eq_ok_append {rows : List Row} : m.rows includeInitial = .ok rows ↔
    ∃ first rest, m.SectionRows .continuous first ∧ m.LaterRows includeInitial rest ∧
      first ++ rest = rows := by
  rw [rows_eq_ok, solvedSections_eq]
  constructor
  · intro h
    obtain ⟨parts, hparts, rfl⟩ := h
    cases hparts with
    | cons hfirst hrest => exact ⟨_, _, hfirst, ⟨_, hrest, rfl⟩, rfl⟩
  · intro h
    obtain ⟨first, rest, hfirst, ⟨parts, hparts, rfl⟩, rfl⟩ := h
    exact ⟨first :: parts, .cons hfirst hparts, rfl⟩

theorem LaterRows.origin {rows : List Row} (h : m.LaterRows includeInitial rows) :
    ∀ row ∈ rows, row.origin ≠ .continuous := by
  obtain ⟨parts, hparts, rfl⟩ := h
  intro row hrow
  obtain ⟨part, hpart, hrow⟩ := List.mem_flatten.mp hrow
  obtain ⟨s, hs, hsection⟩ := Forall₂.exists_left hparts hpart
  rw [hsection.origin row hrow]
  exact ne_continuous_of_mem hs

theorem LaterRows.congr {rows : List Row}
    (hexpanded : ∀ s, s ≠ .continuous → m'.expanded s = m.expanded s)
    (h : m.LaterRows includeInitial rows) : m'.LaterRows includeInitial rows := by
  obtain ⟨parts, hparts, rfl⟩ := h
  refine ⟨parts, Forall₂.imp_of_mem hparts ?_, rfl⟩
  intro s hs part _ hpart
  unfold SectionRows at hpart ⊢
  rwa [hexpanded s (ne_continuous_of_mem hs)]

/-- The continuous entries and the others, each with their rows. -/
structure Sections (m : Model) (includeInitial : Bool) (g : Incidence) (first rest : List Entry)
    (firstRows restRows : List Row) : Prop where
  entries : g.entries = first ++ rest
  continuousRows : m.SectionRows .continuous firstRows
  laterRows : m.LaterRows includeInitial restRows
  fillsFirst : List.Forall₂ m.Fills firstRows.zipIdx first
  fillsRest : List.Forall₂ m.Fills (restRows.zipIdx first.length) rest

theorem exists_sections (h : m.incidence includeInitial = .ok g) :
    ∃ first rest firstRows restRows,
      m.Sections includeInitial g first rest firstRows restRows := by
  obtain ⟨rows, hrows, hfills⟩ := incidence_eq_ok.mp h
  obtain ⟨firstRows, restRows, hfirst, hrest, rfl⟩ := rows_eq_ok_append.mp hrows
  rw [List.zipIdx_append, Nat.zero_add] at hfills
  obtain ⟨first, rest, hentries, hfillsFirst, hfillsRest⟩ := Forall₂.exists_append hfills
  have hlength := hfillsFirst.length_eq
  rw [List.length_zipIdx] at hlength
  exact ⟨first, rest, firstRows, restRows, hentries, hfirst, hrest, hfillsFirst,
    hlength ▸ hfillsRest⟩

def SingleResiduals (m : Model) : Prop :=
  ∀ l ∈ m.expanded .continuous, ∃ r, l.equation.residuals = .ok [r]

namespace Sections

variable {first rest : List Entry} {firstRows restRows : List Row}

theorem origin_first (h : m.Sections includeInitial g first rest firstRows restRows) :
    ∀ e ∈ first, e.origin = .continuous := by
  intro e he
  obtain ⟨⟨row, k⟩, hrow, _, _, rfl⟩ := Forall₂.exists_left h.fillsFirst he
  exact h.continuousRows.origin row (List.mem_of_getElem? (List.mem_zipIdx_iff_getElem?.mp hrow))

theorem origin_rest (h : m.Sections includeInitial g first rest firstRows restRows) :
    ∀ e ∈ rest, e.origin ≠ .continuous := by
  intro e he
  obtain ⟨⟨row, k⟩, hrow, _, _, rfl⟩ := Forall₂.exists_left h.fillsRest he
  apply h.laterRows.origin row
  exact List.mem_of_getElem? (List.mem_zipIdx_iff_le_and_getElem?_sub.mp hrow).2

theorem filter_eq (h : m.Sections includeInitial g first rest firstRows restRows) :
    (g.entries.filter fun e => e.origin = .continuous) = first := by
  rw [h.entries, List.filter_append, List.filter_eq_self.mpr, List.filter_eq_nil_iff.mpr,
    List.append_nil]
  · intro e he
    simpa using h.origin_rest e he
  · intro e he
    simpa using h.origin_first e he

theorem single_first (h : m.Sections includeInitial g first rest firstRows restRows)
    (hsingle : m.SingleResiduals) {e : Entry} (he : e ∈ first) :
    (∃ l ∈ m.expanded .continuous, l.equation = e.source) ∧
      e.source.residuals = .ok [⟨e.assigned, e.exprs, e.multiplicity⟩] ∧
      m.occurrences e.id e.exprs = .ok e.references := by
  obtain ⟨⟨row, k⟩, hrow, references, hreferences, rfl⟩ := Forall₂.exists_left h.fillsFirst he
  obtain ⟨parts, hparts, hflatten⟩ := h.continuousRows
  have hmem : row ∈ parts.flatten := by
    rw [hflatten]
    exact List.mem_of_getElem? (List.mem_zipIdx_iff_getElem?.mp hrow)
  obtain ⟨part, hpart, hrow⟩ := List.mem_flatten.mp hmem
  obtain ⟨l, hl, hrows⟩ := Forall₂.exists_left hparts hpart
  obtain ⟨residuals, hresiduals, rfl⟩ := rowsOf_eq_ok.mp hrows
  obtain ⟨r, hr⟩ := hsingle l hl
  obtain rfl : residuals = [r] := Except.ok.inj (hresiduals.symm.trans hr)
  obtain rfl := List.mem_singleton.mp hrow
  exact ⟨⟨l, hl, rfl⟩, hr, hreferences⟩

theorem position_first (h : m.Sections includeInitial g first rest firstRows restRows)
    {e : Entry} (he : e ∈ first) : e.position < first.length := by
  have hlength := h.fillsFirst.length_eq
  obtain ⟨⟨row, k⟩, hrow, _, _, rfl⟩ := Forall₂.exists_left h.fillsFirst he
  have hk := (List.getElem?_eq_some_iff.mp (List.mem_zipIdx_iff_getElem?.mp hrow)).1
  rw [List.length_zipIdx] at hlength
  exact hlength ▸ hk

theorem position_rest (h : m.Sections includeInitial g first rest firstRows restRows)
    {e : Entry} (he : e ∈ rest) : first.length ≤ e.position := by
  obtain ⟨⟨row, k⟩, hrow, _, _, rfl⟩ := Forall₂.exists_left h.fillsRest he
  exact (List.mem_zipIdx_iff_le_and_getElem?_sub.mp hrow).1

/-! ### Another order -/

variable {es : List Entry}

theorem continuousRows_placed (h : m.Sections includeInitial g first rest firstRows restRows)
    (hsingle : m.SingleResiduals) (hes : ∀ e ∈ es, e ∈ first)
    (hexpanded : m'.expanded .continuous = Section.continuous.numbered (es.map (·.source))) :
    m'.SectionRows .continuous (es.zipIdx.map Entry.placedRow) := by
  refine ⟨es.zipIdx.map fun p => [Entry.placedRow p], ?_, ?_⟩
  · rw [hexpanded, Section.numbered, List.zipIdx_map, List.map_map, List.forall₂_map_left_iff,
      List.forall₂_map_right_iff, List.forall₂_same]
    intro p hp
    have he := hes p.1 (List.mem_of_getElem? (List.mem_zipIdx_iff_getElem?.mp hp))
    rw [rowsOf_eq_ok]
    refine ⟨_, (h.single_first hsingle he).2.1, ?_⟩
    unfold Entry.placedRow
    rw [h.origin_first p.1 he]
    rfl
  · rw [← List.flatMap_def, List.map_eq_flatMap]

theorem fills_placed (h : m.Sections includeInitial g first rest firstRows restRows)
    (hsingle : m.SingleResiduals) (hvars : m'.vars = m.vars) (hes : ∀ e ∈ es, e ∈ first) :
    List.Forall₂ m'.Fills (es.zipIdx.map Entry.placedRow).zipIdx (es.zipIdx.map Entry.placed) := by
  have hzip : (es.zipIdx.map Entry.placedRow).zipIdx =
      es.zipIdx.map fun p => (Entry.placedRow p, p.2) := by
    apply List.ext_getElem
    · simp
    · intro i _ _
      simp
  rw [hzip, List.forall₂_map_left_iff, List.forall₂_map_right_iff, List.forall₂_same]
  intro p hp
  have he := hes p.1 (List.mem_of_getElem? (List.mem_zipIdx_iff_getElem?.mp hp))
  exact ⟨p.1.references, occurrences_congr (.of_eq hvars) (h.single_first hsingle he).2.2, rfl⟩

/-- The incidence of a model that declares the equations of the continuous entries in another
order. -/
theorem incidence_placed (h : m.Sections includeInitial g first rest firstRows restRows)
    (hsingle : m.SingleResiduals) (hvars : m'.vars = m.vars)
    (hlater : ∀ s, s ≠ .continuous → m'.expanded s = m.expanded s) (hes : es.Perm first)
    (hexpanded : m'.expanded .continuous = Section.continuous.numbered (es.map (·.source))) :
    m'.incidence includeInitial = .ok ⟨es.zipIdx.map Entry.placed ++ rest⟩ := by
  have hmem : ∀ e ∈ es, e ∈ first := fun e he => hes.subset he
  rw [incidence_eq_ok]
  refine ⟨es.zipIdx.map Entry.placedRow ++ restRows, ?_, ?_⟩
  · rw [rows_eq_ok_append]
    exact ⟨_, _, h.continuousRows_placed hsingle hmem hexpanded, h.laterRows.congr hlater, rfl⟩
  · rw [List.zipIdx_append, Nat.zero_add, List.length_map, List.length_zipIdx, hes.length_eq]
    exact Forall₂.append (h.fills_placed hsingle hvars hmem)
      (h.fillsRest.imp fun _ _ hfills => fills_congr (.of_eq hvars) hfills)

end Sections

end Model

end Causality
