import Causality.Proofs.Block.Dependencies
import Causality.Proofs.Incidence.Ids
import Causality.Proofs.Incidence.Slots

/-!
# Ids and slots as keys

Later stages look up entries by their ids and equations by their slots. No id and no slot occurs
twice, so that a table with the ids as keys holds what was recorded of every entry.
-/

namespace Causality

namespace Incidence

variable {g : Incidence} {e : Entry}

/-- The references of the entries by id. A later entry of the same id would take the place of an
earlier one. -/
def records (g : Incidence) : Std.HashMap String (List Occurrence) :=
  .ofList (g.entries.map fun e => (e.id, e.references))

theorem distinct_keys (hids : g.ids.Nodup) :
    (g.entries.map fun e => (e.id, e.references)).Pairwise fun a b => (a.1 == b.1) = false := by
  rw [List.pairwise_map]
  exact (List.pairwise_map.mp hids).imp fun hne => beq_eq_false_iff_ne.mpr hne

theorem size_records (hids : g.ids.Nodup) : g.records.size = g.entries.length := by
  rw [records, Std.HashMap.size_ofList (distinct_keys hids), List.length_map]

theorem getElem?_records (hids : g.ids.Nodup) (he : e ∈ g.entries) :
    g.records[e.id]? = some e.references := by
  apply Std.HashMap.getElem?_ofList_of_mem BEq.rfl (distinct_keys hids)
  exact List.mem_map_of_mem he

end Incidence

/-- The entries of a model have different ids, however loops, arrays and choices are nested and
whatever the indices of the loops are called. So there is one record for each entry, and an id
leads back to its entry. No slot is listed twice. -/
theorem Model.ids_and_slots_are_keys (m : Model) (includeInitial : Bool) (g : Incidence)
    (h : m.incidence includeInitial = .ok g) :
    g.ids.Nodup ∧ g.records.size = g.entries.length ∧
      (∀ e ∈ g.entries, g.records[e.id]? = some e.references ∧ g.entry e.id = .ok e) ∧
      (m.slots g).Nodup := by
  have hids := m.nodup_ids h
  refine ⟨hids, Incidence.size_records hids, ?_, m.nodup_slots g⟩
  intro e he
  exact ⟨Incidence.getElem?_records hids he, (Incidence.entry_eq_ok hids).mpr ⟨he, rfl⟩⟩

/-- An array equation in two nested loops, of which the inner one has an index that looks like the
end of a label, and a choice between two values for two unknowns. -/
def Draft.nested : Draft where
  name := "nested"
  vars := [.pair "x" x_ne_empty, .unknown "y" y_ne_empty, .unknown "z" z_ne_empty]
  equations
    | .continuous =>
      [.loop "i" 2 1 (-1) [.loop "1].0[k" 1 2 1 [.simple (.var "x") (.var "y")]]]
    | .discrete =>
      [.choice .ifThen
        [.mk (.binary .lt (.var "y") (.lit (.int 0)))
          [.simple (.var "y") (.lit (.int 1)), .simple (.var "z") (.lit (.int 2))]]
        (some [.simple (.var "z") (.lit (.int 3)), .simple (.var "y") (.lit (.int 4))])]
    | _ => []
  description := ""

/-- Four rounds of the loops with an equation for each element, and one choice. -/
def Draft.nestedExpanded : Section → List Labelled
  | .continuous =>
    ["eq[0][i=2].0[1].0[k=1].0", "eq[0][i=2].0[1].0[k=2].0", "eq[0][i=1].0[1].0[k=1].0",
      "eq[0][i=1].0[1].0[k=2].0"].flatMap fun label =>
        [⟨label ++ "[1]", .simple (.var "x[1]") (.var "y")⟩,
          ⟨label ++ "[2]", .simple (.var "x[2]") (.var "y")⟩]
  | s => Draft.nested.asDeclared s

theorem Draft.elaborate_nested : Draft.nested.elaborate = .ok Draft.nestedExpanded := by
  apply Draft.elaborate_of_sections
  · rfl
  · cbv
  · intro s
    cases s <;> cbv
  · intro s
    cases s <;> cbv

def Model.nested : Model where
  toDraft := .nested
  expanded := Draft.nestedExpanded
  accepted := Draft.elaborate_nested

theorem nested_ids_are_keys : ∃ g, Model.nested.incidence true = .ok g ∧ g.ids.Nodup ∧
    g.records.size = 10 ∧ (Model.nested.slots g).Nodup ∧
    g.ids.take 2 = ["eq[0][i=2].0[1].0[k=1].0[1]", "eq[0][i=2].0[1].0[k=1].0[2]"] ∧
    g.ids.drop 8 = ["disc[0]#0", "disc[0]#1"] := by
  have hfacts : (Model.nested.incidence true).map (fun g =>
      (g.entries.length, g.ids.take 2, g.ids.drop 8)) =
      .ok (10, ["eq[0][i=2].0[1].0[k=1].0[1]", "eq[0][i=2].0[1].0[k=1].0[2]"],
        ["disc[0]#0", "disc[0]#1"]) := by cbv
  obtain ⟨g, hg, hfacts⟩ := map_eq_ok.mp hfacts
  rw [Prod.mk.injEq, Prod.mk.injEq] at hfacts
  obtain ⟨hlength, hfirst, hlast⟩ := hfacts
  obtain ⟨hids, hsize, _, hslots⟩ := Model.ids_and_slots_are_keys .nested true g hg
  exact ⟨g, hg, hids, hsize.trans hlength, hslots, hfirst, hlast⟩

end Causality
