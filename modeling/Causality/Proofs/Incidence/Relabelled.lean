import Causality.Proofs.Incidence.Ids
import Causality.Proofs.Incidence.Reordered
import Mathlib.Logic.Function.Basic

/-!
# Incidence under other labels

Two models of the same variables whose expanded equations differ in their labels only have the same
entries in the same order, but for the ids.
-/

namespace Causality

def Row.SameButId (row row' : Row) : Prop := row' = { row with id := row'.id }

def Entry.SameButId (e e' : Entry) : Prop := e' = { e with id := e'.id }

def Entry.relabel (f : String → String) (e : Entry) : Entry := { e with id := f e.id }

/-- Different ids can be exchanged for any others. -/
theorem Entry.exists_relabel {es es' : List Entry} (h : List.Forall₂ Entry.SameButId es es')
    (hn : (es.map (·.id)).Nodup) : ∃ f, es' = es.map (Entry.relabel f) := by
  induction h with
  | nil => exact ⟨fun u => u, rfl⟩
  | @cons e e' es es' hee' _ ih =>
    rw [List.map_cons, List.nodup_cons] at hn
    obtain ⟨f, rfl⟩ := ih hn.2
    refine ⟨Function.update f e.id e'.id, ?_⟩
    rw [List.map_cons]
    congr 1
    · unfold relabel
      rw [Function.update_self]
      exact hee'
    · apply List.map_congr_left
      intro x hx
      have hne : x.id ≠ e.id := fun heq => hn.1 (heq ▸ List.mem_map_of_mem hx)
      unfold relabel
      rw [Function.update_of_ne hne]

namespace Model

variable {m m' : Model} {s : Section} {l l' : Labelled} {rows : List Row} {includeInitial : Bool}
  {g : Incidence}

theorem exists_rowsOf (he : l.equation = l'.equation) (h : rowsOf s l = .ok rows) :
    ∃ rows', rowsOf s l' = .ok rows' ∧ List.Forall₂ Row.SameButId rows rows' := by
  obtain ⟨residuals, hresiduals, rfl⟩ := rowsOf_eq_ok.mp h
  rw [he] at hresiduals
  refine ⟨_, rowsOf_eq_ok.mpr ⟨residuals, hresiduals, rfl⟩, ?_⟩
  rw [List.forall₂_map_left_iff, List.forall₂_map_right_iff, List.forall₂_same]
  intro r _
  simp [Row.SameButId, he]

theorem exists_fills (hvars : m'.vars = m.vars) {row row' : Row} {k : Nat} {e : Entry}
    (hrow : row.SameButId row') (h : m.Fills (row, k) e) :
    ∃ e', m'.Fills (row', k) e' ∧ e.SameButId e' := by
  obtain ⟨references, hreferences, rfl⟩ := h
  have hresidual : row'.residual = row.residual := by rw [hrow]
  refine ⟨_, ⟨references, ?_, rfl⟩, ?_⟩
  · rw [hresidual]
    exact occurrences_congr (.of_eq hvars) hreferences
  · unfold Entry.SameButId Row.entry
    rw [hrow]

theorem exists_relabelled (hvars : m'.vars = m.vars)
    (he : ∀ s, (m.expanded s).map (·.equation) = (m'.expanded s).map (·.equation))
    (h : m.incidence includeInitial = .ok g) :
    ∃ f, m'.incidence includeInitial = .ok ⟨g.entries.map (Entry.relabel f)⟩ := by
  obtain ⟨⟨entries'⟩, hg', hsame⟩ := exists_incidence (fun s => Forall₂.of_map_eq (he s))
    (fun _ _ _ _ => exists_rowsOf) (fun _ _ _ _ => exists_fills hvars) h
  obtain ⟨f, rfl⟩ := Entry.exists_relabel hsame (m.nodup_ids h)
  exact ⟨f, hg'⟩

end Model

end Causality
