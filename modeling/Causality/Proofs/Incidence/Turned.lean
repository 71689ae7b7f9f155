import Causality.Proofs.Block.Dependencies
import Causality.Proofs.Incidence.Reordered
import Causality.Proofs.Matching.Relabelled
import Causality.Proofs.Model.Turned

/-!
# Incidence of models turned around

An entry references the same unknowns as often, whichever way round its equation is written. So
the slots, the matching and the dependencies stay as they are.
-/

namespace Causality

structure Row.Turns (row row' : Row) : Prop where
  id : row'.id = row.id
  origin : row'.origin = row.origin
  source : row.source.Turns row'.source
  exprs : row'.residual.exprs.Perm row.residual.exprs
  multiplicity : row'.residual.multiplicity = row.residual.multiplicity

structure Entry.Turns (e e' : Entry) : Prop where
  id : e'.id = e.id
  origin : e'.origin = e.origin
  position : e'.position = e.position
  source : e.source.Turns e'.source
  multiplicity : e'.multiplicity = e.multiplicity
  references : e'.references.Perm e.references

theorem Row.Turns.refl (row : Row) : row.Turns row := ⟨rfl, rfl, .same _, .rfl, rfl⟩

namespace Entry.Turns

variable {e e' : Entry} (h : e.Turns e')

include h

theorem alike : e.Alike (fun u => u) e' :=
  ⟨h.id, h.position, fun _ => h.references.mem_iff⟩

theorem count_eq : e'.count = e.count := by
  funext o
  exact h.references.count_eq o

theorem isWritable_eq : e'.isWritable = e.isWritable := h.source.isWritable_eq

theorem isSelfDependent_eq (slot : Occurrence) :
    e'.isSelfDependent slot = e.isSelfDependent slot := by
  unfold isSelfDependent
  rw [h.multiplicity, h.count_eq]

end Entry.Turns

namespace Model

variable {m m' : Model} {id id' : String} {es es' : List Expr} {os : List Occurrence}
  {s : Section} {l l' : Labelled} {rows : List Row} {row row' : Row} {k : Nat} {e : Entry}
  {includeInitial : Bool} {g : Incidence}

/-! ### Entries -/

theorem exists_rowsOf_turn (hl : l.Turns l') (h : rowsOf s l = .ok rows) :
    ∃ rows', rowsOf s l' = .ok rows' ∧ List.Forall₂ Row.Turns rows rows' := by
  obtain ⟨label, equation⟩ := l
  obtain ⟨label', equation'⟩ := l'
  obtain ⟨hlabel, hequation⟩ := hl
  dsimp only at hlabel hequation
  subst hlabel
  cases hequation with
  | same => exact ⟨rows, h, List.forall₂_same.mpr fun row _ => .refl row⟩
  | turn lhs rhs =>
    obtain rfl := Except.ok.inj h
    refine ⟨_, rfl, .cons ?_ .nil⟩
    exact ⟨rfl, rfl, .turn lhs rhs, .swap _ _ _, rfl⟩

/-- The order of the expressions is that of the references only. -/
theorem exists_occurrences_perm (hnames : SameNames m.vars m'.vars) (hes : es'.Perm es)
    (h : m.occurrences id es = .ok os) :
    ∃ os', m'.occurrences id' es' = .ok os' ∧ os'.Perm os := by
  have hos : m'.occurrences id' es = .ok os := occurrences_congr hnames h
  simp only [occurrences, bind_eq_ok, pure_eq_ok, mapM_eq_ok] at hos ⊢
  obtain ⟨parts, hparts, rfl⟩ := hos
  obtain ⟨parts', hparts', hperm⟩ := List.perm_comp_forall₂ hes hparts
  exact ⟨parts'.flatten, ⟨parts', hparts', rfl⟩, hperm.flatten⟩

theorem exists_fills_turn (hvars : m'.vars = m.vars) (hrow : row.Turns row')
    (h : m.Fills (row, k) e) : ∃ e', m'.Fills (row', k) e' ∧ e.Turns e' := by
  obtain ⟨references, hreferences, rfl⟩ := h
  obtain ⟨references', hreferences', hperm⟩ :=
    exists_occurrences_perm (.of_eq hvars) hrow.exprs hreferences
  exact ⟨_, ⟨references', hreferences', rfl⟩, hrow.id, hrow.origin, rfl, hrow.source,
    hrow.multiplicity, hperm⟩

theorem exists_incidence_turn (h : m.toDraft.Turns m'.toDraft)
    (hg : m.incidence includeInitial = .ok g) :
    ∃ g', m'.incidence includeInitial = .ok g' ∧ List.Forall₂ Entry.Turns g.entries g'.entries :=
  exists_incidence (forall₂_expanded h) (fun _ _ _ _ => exists_rowsOf_turn)
    (fun _ _ _ _ => exists_fills_turn h.vars) hg

end Model

/-! ### Structure -/

namespace Incidence

variable {g g' : Incidence} {a : Assignment} (h : List.Forall₂ Entry.Turns g.entries g'.entries)

include h

theorem ids_turn : g'.ids = g.ids :=
  Forall₂.map_eq (h.flip.imp fun _ _ he => he.id)

theorem differentiates_turn (element : String) :
    g'.differentiates element = g.differentiates element := by
  apply Forall₂.any_eq
  apply h.flip.imp
  intro e' e he
  exact he.references.contains_eq

theorem constrains_turn (element : String) : g'.constrains element = g.constrains element := by
  apply Forall₂.any_eq
  apply h.flip.imp
  intro e' e he
  rw [he.origin, he.references.any_eq]

theorem slots_turn {m m' : Model} (hvars : m'.vars = m.vars) : m'.slots g' = m.slots g := by
  unfold Model.slots
  rw [hvars]
  apply List.flatMap_congr
  intro v _
  have helement : v.elementSlots g' = v.elementSlots g := by
    funext element
    unfold Variable.elementSlots
    rw [differentiates_turn h, constrains_turn h]
  unfold Variable.slots
  rw [helement]

theorem matching_turn {m m' : Model} (hvars : m'.vars = m.vars) (hids : g.ids.Nodup)
    (maxSteps : Option Int) : m'.matching g' maxSteps = m.matching g maxSteps := by
  have hids' : g'.ids.Nodup := by rwa [ids_turn h]
  have halike := h.imp fun _ _ he => he.alike
  exact (matching_alike halike (slots_turn h hvars) hids hids' maxSteps).eq

theorem position?_turn : g'.position? = g.position? := by
  funext id
  apply Forall₂.find?_map_eq
  apply (List.rel_reverse h).flip.imp
  intro e' e he
  rw [he.id, he.position]
  exact ⟨rfl, rfl⟩

theorem dependencies_turn : g'.dependencies a = g.dependencies a := by
  have hdependents : g'.dependents a = g.dependents a := by
    funext id slot
    unfold dependents
    rw [position?_turn h]
    congr 1
    apply Forall₂.filter_map_eq
    apply h.flip.imp
    intro e' e he
    rw [he.references.contains_eq, he.id]
    exact ⟨rfl, rfl⟩
  unfold dependencies
  rw [hdependents]

theorem components_turn : g'.components a = g.components a := by
  unfold components
  rw [dependencies_turn h, position?_turn h, ids_turn h]

end Incidence

end Causality
