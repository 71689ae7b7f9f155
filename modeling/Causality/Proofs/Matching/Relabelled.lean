import Causality.Proofs.Incidence.Relabelled
import Causality.Proofs.Matching.Models

/-!
# Matchings under other ids

The search for a matching does not look at ids. Entries that differ in them only are paired with the
same slots, however long the search may take.
-/

namespace Causality

/-- Graphs with the same candidates and positions are paired alike. The equations of the one are
counted by an expression that only equals that of the other. -/
theorem Bipartite.pair_cast {n n' m : Nat} (hn : n' = n) {b : Bipartite n m} {b' : Bipartite n' m}
    (h : ∀ i, b'.candidates i = b.candidates (i.cast hn))
    (hposition : ∀ i, b'.position i = b.position (i.cast hn)) (budget : Option Int) :
    (∀ i, (b'.pair budget).1.slotOf i = (b.pair budget).1.slotOf (i.cast hn)) ∧
      (∀ j, ((b'.pair budget).1.equationOf j).isNone = ((b.pair budget).1.equationOf j).isNone) ∧
      (b'.pair budget).2 = (b.pair budget).2 := by
  subst hn
  have heq : b' = b := by
    cases b
    cases b'
    exact congrArg₂ Bipartite.mk (funext h) (funext hposition)
  subst heq
  exact ⟨fun _ => rfl, fun _ => rfl, rfl⟩

theorem finRange_cast {n n' : Nat} (hn : n' = n) :
    List.finRange n = (List.finRange n').map (Fin.cast hn) := by
  subst hn
  exact (List.map_id _).symm

structure Matching.Relabels (f : String → String) (x x' : Matching) : Prop where
  slots : x'.slots = x.slots
  pairs : x'.assignment.pairs = x.assignment.pairs.map fun p => (f p.1, p.2)
  unmatchedEquations : x'.unmatchedEquations = x.unmatchedEquations.map f
  unmatchedSlots : x'.unmatchedSlots = x.unmatchedSlots
  aborted : x'.aborted = x.aborted

theorem Assignment.eq_of_pairs {a b : Assignment} (h : a.pairs = b.pairs) : a = b := by
  cases a
  cases b
  cases h
  rfl

theorem Matching.Relabels.eq {x x' : Matching} (h : x.Relabels id x') : x' = x := by
  have hassignment : x'.assignment = x.assignment := by
    apply Assignment.eq_of_pairs
    rw [h.pairs]
    exact List.map_id _
  have hunmatched := h.unmatchedEquations
  rw [List.map_id] at hunmatched
  cases x
  cases x'
  simp only [Matching.mk.injEq]
  exact ⟨h.slots, hassignment, hunmatched, h.unmatchedSlots, h.aborted⟩

structure Entry.Alike (f : String → String) (e e' : Entry) : Prop where
  id : e'.id = f e.id
  position : e'.position = e.position
  mem_references : ∀ o, o ∈ e'.references ↔ o ∈ e.references

theorem Entry.Alike.candidates_eq {f : String → String} {e e' : Entry} (h : e.Alike f e') {k : Nat}
    (slots : Vector Occurrence k) : e'.candidates slots = e.candidates slots := by
  simp only [candidates, List.contains_eq_mem, h.mem_references]

namespace Incidence

variable {g g' : Incidence} {f : String → String}

def relabel (g : Incidence) (f : String → String) : Incidence := ⟨g.entries.map (Entry.relabel f)⟩

theorem ids_relabel : (g.relabel f).ids = g.ids.map f := by
  rw [ids, ids, relabel, List.map_map, List.map_map]
  rfl

theorem length_relabel : (g.relabel f).entries.length = g.entries.length := List.length_map _

theorem forall₂_relabel : List.Forall₂ (Entry.Alike f) g.entries (g.relabel f).entries := by
  rw [relabel, List.forall₂_map_right_iff, List.forall₂_same]
  exact fun e _ => ⟨rfl, rfl, fun _ => Iff.rfl⟩

section Alike

variable (h : List.Forall₂ (Entry.Alike f) g.entries g'.entries)

include h

theorem alike_get (i : Fin g'.entries.length) :
    (g.entries.get (i.cast h.length_eq.symm)).Alike f (g'.entries.get i) :=
  (List.forall₂_iff_get.mp h).2 i _ i.isLt

theorem matchingOf_alike {k : Nat} (slots : Vector Occurrence k) (hids : g.ids.Nodup)
    (hids' : g'.ids.Nodup) (budget : Option Int) :
    Matching.Relabels f
      (g.matchingOf slots ((g.bipartite slots).pair budget).1 ((g.bipartite slots).pair budget).2)
      (g'.matchingOf slots ((g'.bipartite slots).pair budget).1
        ((g'.bipartite slots).pair budget).2) := by
  have hlength := h.length_eq.symm
  have hcandidates : ∀ i, (g'.bipartite slots).candidates i =
      (g.bipartite slots).candidates (i.cast hlength) := by
    intro i
    rw [candidates_bipartite, candidates_bipartite, node_eq hids, node_eq hids']
    exact (alike_get h i).candidates_eq slots
  obtain ⟨hslots, hequations, haborted⟩ := Bipartite.pair_cast hlength hcandidates
    (fun i => (alike_get h i).position) budget
  have hrange := finRange_cast hlength
  refine ⟨rfl, ?_, ?_, ?_, haborted⟩
  · rw [pairs_matchingOf hids, pairs_matchingOf hids', pairsOf, pairsOf, hrange,
      List.filterMap_map, List.map_filterMap]
    apply List.filterMap_congr
    intro i _
    rw [Function.comp_apply, node_eq hids, node_eq hids', hslots i, (alike_get h i).id,
      Option.map_map]
    rfl
  · rw [unpaired_matchingOf hids', unpaired_matchingOf hids, hrange,
      List.filter_map, List.map_map, List.map_map]
    have hfree : ∀ i, (((g'.bipartite slots).pair budget).1.slotOf i).isNone =
        (((g.bipartite slots).pair budget).1.slotOf (i.cast hlength)).isNone := by
      intro i
      rw [hslots i]
    simp only [hfree]
    apply List.map_congr_left
    intro i _
    exact (alike_get h i).id
  · change ((List.finRange _).filter _).map _ = ((List.finRange _).filter _).map _
    simp only [hequations]

theorem matching_alike {m m' : Model} (hslots : m'.slots g' = m.slots g) (hids : g.ids.Nodup)
    (hids' : g'.ids.Nodup) (maxSteps : Option Int) :
    (m.matching g maxSteps).Relabels f (m'.matching g' maxSteps) := by
  rw [m.matching_eq hids, m'.matching_eq hids']
  unfold Model.slotVector
  generalize m'.slots g' = slots at hslots ⊢
  subst hslots
  exact matchingOf_alike h _ hids hids' maxSteps

end Alike

end Incidence

end Causality
