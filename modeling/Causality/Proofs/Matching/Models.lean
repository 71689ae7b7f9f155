import Causality.Proofs.Incidence.Ids
import Causality.Proofs.Incidence.Slots
import Causality.Proofs.Matching.Assignment
import Mathlib.Data.Fintype.Prod

/-!
# Matchings of models

The matching of a model admits its incidence, whatever the search may cost. Without a bound it is
maximum, and an equation whose search fails once is never paired by a later one.
-/

namespace Causality

namespace Incidence

variable {m : Nat} {g : Incidence} {slots : Vector Occurrence m}
  {p : Pairing g.entries.length m} {aborted : Bool}

theorem size_matchingOf (hids : g.ids.Nodup) :
    (g.matchingOf slots p aborted).assignment.size =
      (Finset.univ.filter fun i => (p.slotOf i).isSome).card := by
  have hlen := congrArg List.length (@ids_pairsOf m g slots p)
  rw [List.length_map, List.length_map] at hlen
  rw [Assignment.size, pairs_matchingOf hids, hlen,
    ← List.toFinset_card_of_nodup ((List.nodup_finRange _).filter _)]
  congr 1
  ext i
  simp [node_eq hids]

def edgesOf (g : Incidence) (slots : Vector Occurrence m) (a : Assignment) :
    Finset (Fin g.entries.length × Fin m) :=
  Finset.univ.filter fun e => ((g.entries.get e.1).id, slots.get e.2) ∈ a.pairs

theorem mem_edgesOf {a : Assignment} {e : Fin g.entries.length × Fin m} :
    e ∈ g.edgesOf slots a ↔ ((g.entries.get e.1).id, slots.get e.2) ∈ a.pairs := by
  simp [edgesOf]

theorem IsMatching.size_le_card_edgesOf {a : Assignment} (ha : g.IsMatching slots.toList a) :
    a.size ≤ (g.edgesOf slots a).card := by
  have hsub : a.pairs.toFinset ⊆
      (g.edgesOf slots a).image fun e => ((g.entries.get e.1).id, slots.get e.2) := by
    rintro ⟨id, slot⟩ h
    rw [List.mem_toFinset] at h
    obtain ⟨e, he, rfl, _⟩ := ha.reference _ _ h
    obtain ⟨i, rfl⟩ := exists_index he
    have hslot := ha.mem_slots slot (Assignment.mem_slots.mpr ⟨_, h⟩)
    obtain ⟨j, hj, rfl⟩ := List.mem_iff_getElem.mp hslot
    have hjm : j < m := by simpa using hj
    have hget : slots.get ⟨j, hjm⟩ = slots.toList[j] := rfl
    refine Finset.mem_image.mpr ⟨(i, ⟨j, hjm⟩), mem_edgesOf.mpr ?_, ?_⟩
    · rw [hget]
      exact h
    · rw [hget]
  rw [Assignment.size, ← List.toFinset_card_of_nodup (List.Nodup.of_map _ a.nodup)]
  exact (Finset.card_le_card hsub).trans Finset.card_image_le

theorem IsMatching.size_le {a : Assignment} (ha : g.IsMatching slots.toList a)
    (hids : g.ids.Nodup) (hslots : slots.toList.Nodup) (hp : p.Consistent (g.bipartite slots))
    (hb : ∀ i, p.slotOf i = none → p.Blocked (g.bipartite slots) i) :
    a.size ≤ (g.matchingOf slots p aborted).assignment.size := by
  rw [size_matchingOf hids]
  refine ha.size_le_card_edgesOf.trans (hp.card_le_of_blocked hb (g.edgesOf slots a) ?_ ?_ ?_)
  · intro e he
    obtain ⟨f, hf, hid, hreference⟩ := ha.reference _ _ (mem_edgesOf.mp he)
    obtain ⟨i, rfl⟩ := exists_index hf
    rw [mem_candidates hids, ← index_unique hids hid]
    exact hreference
  · rintro ⟨i, j⟩ he ⟨k, l⟩ hf hik
    obtain rfl : i = k := hik
    have hj : ((g.entries.get i).id, slots.get j) ∈ a.pairs := mem_edgesOf.mp he
    have hl : ((g.entries.get i).id, slots.get l) ∈ a.pairs := mem_edgesOf.mp hf
    exact Prod.ext rfl (slotIndex_unique hslots (Assignment.slot_unique hj hl))
  · rintro ⟨i, j⟩ he ⟨k, l⟩ hf hjl
    obtain rfl : j = l := hjl
    have hi : ((g.entries.get i).id, slots.get j) ∈ a.pairs := mem_edgesOf.mp he
    have hk : ((g.entries.get k).id, slots.get j) ∈ a.pairs := mem_edgesOf.mp hf
    exact Prod.ext (index_unique hids (Assignment.id_unique ha.nodup hi hk)) rfl

end Incidence

variable {m : Model} {includeInitial : Bool} {g : Incidence}

def Model.slotVector (m : Model) (g : Incidence) : Vector Occurrence (m.slots g).toArray.size :=
  (m.slots g).toArray.toVector

theorem Model.toList_slotVector (m : Model) (g : Incidence) :
    (m.slotVector g).toList = m.slots g := rfl

theorem Model.matching_eq_along (m : Model) (g : Incidence) (maxSteps : Option Int) :
    let b := g.bipartite (m.slotVector g)
    m.matching g maxSteps = g.matchingOf (m.slotVector g)
      (b.pairAlong (g.searchOrder b) maxSteps).1 (b.pairAlong (g.searchOrder b) maxSteps).2 := rfl

/-- Entries with ids of their own are tried in the order of the graph. -/
theorem Model.matching_eq (m : Model) (hids : g.ids.Nodup) (maxSteps : Option Int) :
    m.matching g maxSteps = g.matchingOf (m.slotVector g)
      ((g.bipartite (m.slotVector g)).pair maxSteps).1
      ((g.bipartite (m.slotVector g)).pair maxSteps).2 := by
  rw [m.matching_eq_along, Incidence.searchOrder_eq hids]
  rfl

theorem Model.position_bipartite (h : m.incidence includeInitial = .ok g) {k : Nat}
    (slots : Vector Occurrence k) (i : Fin g.entries.length) :
    (g.bipartite slots).position i = i := by
  have hposition := congrArg (·[i.val]?) (m.positions_eq h)
  simpa [Incidence.bipartite] using hposition

theorem Model.slots_matching (m : Model) (g : Incidence) (maxSteps : Option Int) :
    (m.matching g maxSteps).slots = m.slots g := rfl

/-- Whatever the graph, its entries are matched with slots that they reference, no slot twice. -/
theorem Model.isMatching_matching (m : Model) (g : Incidence) (maxSteps : Option Int) :
    g.IsMatching (m.slots g) (m.matching g maxSteps).assignment := by
  have hslots : (m.slotVector g).toList.Nodup := m.nodup_slots g
  exact Incidence.isMatching_matchingOf hslots (Bipartite.owned_pairAlong _ _ _)

theorem Model.admits_of_nodup (m : Model) (hids : g.ids.Nodup) (maxSteps : Option Int) :
    g.Admits (m.matching g maxSteps) := by
  rw [m.matching_eq hids]
  refine Incidence.admits_matchingOf hids ?_ (Bipartite.consistent_pair _ _)
  rw [m.toList_slotVector]
  exact m.nodup_slots g

theorem Model.matching_admits (h : m.incidence includeInitial = .ok g) (maxSteps : Option Int) :
    g.Admits (m.matching g maxSteps) :=
  m.admits_of_nodup (m.nodup_ids h) maxSteps

theorem Model.size_le_matching (h : m.incidence includeInitial = .ok g) {a : Assignment}
    (ha : g.IsMatching (m.slots g) a) : a.size ≤ (m.matching g none).assignment.size := by
  rw [m.matching_eq (m.nodup_ids h)]
  refine Incidence.IsMatching.size_le ha (m.nodup_ids h) (m.nodup_slots g)
    (Bipartite.consistent_pair _ _) ?_
  exact fun i hi => Bipartite.slotOf_pair_none _ i hi

/-- Without a bound on the search, no matching of the entries with the slots has more pairs than
the one that is returned. After the greedy start one search is made from each equation, in the
order of their candidate counts and positions. One that fails would fail after any later one. -/
theorem Model.matching_is_maximum (m : Model) (includeInitial : Bool) (g : Incidence)
    (h : m.incidence includeInitial = .ok g) :
    g.Admits (m.matching g none) ∧
      (∀ a, g.IsMatching (m.slots g) a → a.size ≤ (m.matching g none).assignment.size) ∧
      let b := g.bipartite (m.slotVector g)
      m.matching g none = g.matchingOf (m.slotVector g) (b.searched b.order) false ∧
        b.order.Perm (List.finRange g.entries.length) ∧
        (b.order.Pairwise fun i k => (b.candidates i).length < (b.candidates k).length ∨
          (b.candidates i).length = (b.candidates k).length ∧ i < k) ∧
        ∀ before i later after, b.order = before ++ i :: (later ++ after) →
          (b.searched before).slotOf i = none →
          (b.augment (b.searched before) none i).found = false →
          (b.searched (before ++ i :: later)).slotOf i = none ∧
            (b.augment (b.searched (before ++ i :: later)) none i).found = false := by
  refine ⟨m.matching_admits h none, fun a ha => m.size_le_matching h ha, ?_⟩
  intro b
  refine ⟨?_, b.order_perm, b.pairwise_order_of_position (Model.position_bipartite h _), ?_⟩
  · rw [m.matching_eq (m.nodup_ids h), b.searched_order, b.pair_none_snd]
  · intro before i later after _ hfree hfail
    exact Bipartite.searched_of_failed before (i :: later) hfree hfail

/-- Greedily `z * z = x` takes `x`, so that the third equation is paired by a search only. -/
theorem matching_coupled_is_maximum : ∃ g, Model.coupled.incidence true = .ok g ∧
    (Model.coupled.matching g none).assignment.size = 3 ∧
    ∀ a, g.IsMatching (Model.coupled.slots g) a → a.size ≤ 3 := by
  have hsize : (Model.coupled.incidence true).map
      (fun g => (Model.coupled.matching g none).assignment.size) = .ok 3 := by cbv
  obtain ⟨g, h, hsize⟩ := map_eq_ok.mp hsize
  refine ⟨g, h, hsize, ?_⟩
  rw [← hsize]
  exact (Model.matching_is_maximum .coupled true g h).2.1

end Causality
