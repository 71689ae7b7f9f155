import Causality.Matching.Basic
import Causality.Proofs.Matching.Maximum

/-!
# Assignments as matchings

An assignment is a matching of entries and slots if each pair is a reference and no slot is taken
twice. A consistent pairing stands for such an assignment, and every equation and every slot is
either in a pair or listed as unmatched.
-/

namespace Causality

namespace Assignment

variable {a : Assignment} {id id' : String} {slot slot' : Occurrence}

theorem mem_ids : id ∈ a.ids ↔ ∃ slot, (id, slot) ∈ a.pairs := by
  simp [ids]

theorem mem_slots : slot ∈ a.slots ↔ ∃ id, (id, slot) ∈ a.pairs := by
  simp [slots]

theorem nodup_ids (a : Assignment) : a.ids.Nodup := a.nodup

theorem contains_iff : a.contains id = true ↔ id ∈ a.ids := by
  simp [contains]

theorem slot_unique (h : (id, slot) ∈ a.pairs) (h' : (id, slot') ∈ a.pairs) : slot = slot' :=
  (Prod.mk.inj (List.inj_on_of_nodup_map a.nodup h h' rfl)).2

theorem id_unique (hn : a.slots.Nodup) (h : (id, slot) ∈ a.pairs) (h' : (id', slot) ∈ a.pairs) :
    id = id' :=
  (Prod.mk.inj (List.inj_on_of_nodup_map hn h h' rfl)).1

theorem mem_pairs_insert {p : String × Occurrence} (h : p ∈ (a.insert id slot).pairs) :
    p ∈ a.pairs ∨ p = (id, slot) := by
  unfold insert at h
  split at h
  · obtain ⟨q, hq, rfl⟩ := List.mem_map.mp h
    unfold reassign
    split
    · exact .inr rfl
    · exact .inl hq
  · simpa using h

theorem mem_ids_insert : id' ∈ (a.insert id slot).ids ↔ id' ∈ a.ids ∨ id' = id := by
  unfold insert
  split
  · next h =>
    have hids : ((a.pairs.map (reassign id slot)).map (·.1)) = a.ids := by
      simp [ids, Function.comp_def, reassign_fst]
    rw [ids, hids]
    constructor
    · exact .inl
    · rintro (hid | rfl)
      · exact hid
      · exact h
  · simp [ids]

theorem mem_pairs_foldl_insert {pairs : List (String × Occurrence)} {p : String × Occurrence}
    (h : p ∈ (pairs.foldl (fun a (id, slot) => a.insert id slot) a).pairs) :
    p ∈ a.pairs ∨ p ∈ pairs := by
  induction pairs generalizing a with
  | nil => exact .inl h
  | cons q pairs ih =>
    rcases ih h with h | h
    · rcases mem_pairs_insert h with h | rfl
      · exact .inl h
      · exact .inr List.mem_cons_self
    · exact .inr (List.mem_cons_of_mem _ h)

theorem mem_ids_foldl_insert {pairs : List (String × Occurrence)} :
    id ∈ (pairs.foldl (fun a (id, slot) => a.insert id slot) a).ids ↔
      id ∈ a.ids ∨ id ∈ pairs.map (·.1) := by
  induction pairs generalizing a with
  | nil => simp
  | cons q pairs ih =>
    rw [List.foldl_cons, ih, mem_ids_insert, List.map_cons, List.mem_cons, or_assoc]

/-- Every pair is one of those that were inserted, and every id that was inserted has one. -/
theorem mem_pairs_ofList {pairs : List (String × Occurrence)} {p : String × Occurrence}
    (h : p ∈ (ofList pairs).pairs) : p ∈ pairs :=
  (mem_pairs_foldl_insert h).resolve_left (by simp [empty])

theorem mem_ids_ofList {pairs : List (String × Occurrence)} :
    id ∈ (ofList pairs).ids ↔ id ∈ pairs.map (·.1) := by
  rw [ofList, mem_ids_foldl_insert, ids, empty, List.map_nil]
  exact or_iff_right List.not_mem_nil

/-- No slot occurs twice if only one id was inserted with it. -/
theorem nodup_slots_ofList {pairs : List (String × Occurrence)}
    (h : ∀ p ∈ pairs, ∀ q ∈ pairs, p.2 = q.2 → p.1 = q.1) : (ofList pairs).slots.Nodup := by
  refine List.Nodup.map_on ?_ (List.Nodup.of_map _ (ofList pairs).nodup)
  intro p hp q hq hslot
  exact Prod.ext (h p (mem_pairs_ofList hp) q (mem_pairs_ofList hq) hslot) hslot

theorem pairs_insert (h : id ∉ a.ids) : (a.insert id slot).pairs = a.pairs ++ [(id, slot)] := by
  rw [insert, dif_neg h]

theorem pairs_foldl_insert {pairs : List (String × Occurrence)}
    (hn : (a.ids ++ pairs.map (·.1)).Nodup) :
    (pairs.foldl (fun a (id, slot) => a.insert id slot) a).pairs = a.pairs ++ pairs := by
  induction pairs generalizing a with
  | nil => simp
  | cons p pairs ih =>
    have hp : p.1 ∉ a.ids := by
      intro hmem
      exact (List.nodup_append.mp hn).2.2 p.1 hmem p.1 List.mem_cons_self rfl
    have hins : (a.insert p.1 p.2).ids = a.ids ++ [p.1] := by
      rw [ids, pairs_insert hp, List.map_append]
      rfl
    rw [List.foldl_cons, ih, pairs_insert hp, List.append_assoc]
    · rfl
    · rw [hins, List.append_assoc]
      exact hn

theorem pairs_ofList {pairs : List (String × Occurrence)} (hn : (pairs.map (·.1)).Nodup) :
    (ofList pairs).pairs = pairs := by
  rw [ofList, pairs_foldl_insert]
  · rfl
  · exact hn

end Assignment

theorem Entry.mem_candidates {m : Nat} {slots : Vector Occurrence m} {e : Entry}
    {j : Fin m} :
    j ∈ e.candidates slots ↔ slots.get j ∈ e.references := by
  have hslot : slots[j] = slots.get j := rfl
  rw [Entry.candidates]
  simp only [List.mem_append, List.mem_filter, List.mem_finRange, true_and, hslot]
  generalize slots.get j = slot
  cases slot.isDerivative <;> simp

structure Incidence.IsMatching (g : Incidence) (slots : List Occurrence) (a : Assignment) : Prop
    where
  reference : ∀ id slot, (id, slot) ∈ a.pairs → ∃ e ∈ g.entries, e.id = id ∧ slot ∈ e.references
  mem_slots : ∀ slot ∈ a.slots, slot ∈ slots
  nodup : a.slots.Nodup

/-- The matching covers each equation and each slot once, by a pair or as unmatched. -/
structure Incidence.Admits (g : Incidence) (x : Matching) : Prop where
  isMatching : g.IsMatching x.slots x.assignment
  equations : (x.assignment.ids ++ x.unmatchedEquations).Perm g.ids
  slots : (x.assignment.slots ++ x.unmatchedSlots).Perm x.slots

namespace Incidence

theorem mem_ids {g : Incidence} {id : String} : id ∈ g.ids ↔ ∃ e ∈ g.entries, e.id = id := by
  simp [ids]

theorem IsMatching.mem_ids {g : Incidence} {slots : List Occurrence} {a : Assignment} {u : String}
    (h : g.IsMatching slots a) (hu : u ∈ a.ids) : u ∈ g.ids := by
  obtain ⟨slot, hslot⟩ := Assignment.mem_ids.mp hu
  obtain ⟨e, he, rfl, _⟩ := h.reference u slot hslot
  exact Incidence.mem_ids.mpr ⟨e, he, rfl⟩

variable {m : Nat} {g : Incidence} {slots : Vector Occurrence m}

theorem candidates_bipartite (i : Fin g.entries.length) :
    (g.bipartite slots).candidates i = (g.entries.get (g.node i)).candidates slots := by
  simp [bipartite]

theorem index_unique (hids : g.ids.Nodup) {i k : Fin g.entries.length}
    (h : (g.entries.get i).id = (g.entries.get k).id) : i = k := by
  have hi : i.val < g.ids.length := by simp [ids]
  have hk : k.val < g.ids.length := by simp [ids]
  have hget : g.ids[i.val] = g.ids[k.val] := by simpa [ids] using h
  exact Fin.ext ((hids.getElem_inj_iff).mp hget)

theorem id_node (i : Fin g.entries.length) :
    (g.entries.get (g.node i)).id = (g.entries.get i).id := by
  unfold node
  cases h : (List.finRange g.entries.length).find? fun k => g.entries[k].id = g.entries[i].id with
  | none => rfl
  | some k => simpa using List.find?_some h

theorem node_eq (hids : g.ids.Nodup) (i : Fin g.entries.length) : g.node i = i :=
  index_unique hids (id_node i)

theorem searchOrder_eq (hids : g.ids.Nodup) (b : Bipartite g.entries.length m) :
    g.searchOrder b = b.order := by
  rw [searchOrder, funext (node_eq hids)]
  exact List.map_id _

theorem mem_candidates (hids : g.ids.Nodup) {i : Fin g.entries.length} {j : Fin m} :
    j ∈ (g.bipartite slots).candidates i ↔ slots.get j ∈ (g.entries.get i).references := by
  rw [candidates_bipartite, node_eq hids, Entry.mem_candidates]

theorem slotIndex_unique (hslots : slots.toList.Nodup) {j k : Fin m}
    (h : slots.get j = slots.get k) : j = k := by
  have hj : j.val < slots.toList.length := by simp
  have hk : k.val < slots.toList.length := by simp
  have hget : slots.toList[j.val] = slots.toList[k.val] := by
    rw [Vector.getElem_toList, Vector.getElem_toList]
    exact h
  exact Fin.ext ((hslots.getElem_inj_iff).mp hget)

theorem exists_index {e : Entry} (he : e ∈ g.entries) :
    ∃ i : Fin g.entries.length, g.entries.get i = e := by
  obtain ⟨i, hi, rfl⟩ := List.mem_iff_getElem.mp he
  exact ⟨⟨i, hi⟩, rfl⟩

/-! ### The matching of a pairing -/

variable {p : Pairing g.entries.length m} {aborted : Bool}

def pairsOf (g : Incidence) (slots : Vector Occurrence m) (p : Pairing g.entries.length m) :
    List (String × Occurrence) :=
  (List.finRange g.entries.length).filterMap fun i =>
    (p.slotOf (g.node i)).map fun j => ((g.entries.get i).id, slots.get j)

theorem assignment_matchingOf :
    (g.matchingOf slots p aborted).assignment = .ofList (g.pairsOf slots p) := rfl

theorem mem_pairsOf {e : String × Occurrence} : e ∈ g.pairsOf slots p ↔
    ∃ i j, p.slotOf (g.node i) = some j ∧ ((g.entries.get i).id, slots.get j) = e := by
  simp only [pairsOf, List.mem_filterMap, List.mem_finRange, true_and, Option.map_eq_some_iff]

theorem ids_pairsOf : (g.pairsOf slots p).map (·.1) =
    ((List.finRange g.entries.length).filter fun i => (p.slotOf (g.node i)).isSome).map
      fun i => (g.entries.get i).id := by
  rw [pairsOf]
  induction List.finRange g.entries.length with
  | nil => rfl
  | cons i is ih =>
    cases h : p.slotOf (g.node i) with
    | none => simpa [h] using ih
    | some j => simpa [h] using ih

theorem mem_ids_matchingOf {id : String} :
    id ∈ (g.matchingOf slots p aborted).assignment.ids ↔
      ∃ i, (p.slotOf (g.node i)).isSome ∧ (g.entries.get i).id = id := by
  rw [assignment_matchingOf, Assignment.mem_ids_ofList, ids_pairsOf]
  simp only [List.mem_map, List.mem_filter, List.mem_finRange, true_and]

/-- Entries with one id are looked up in one place, so that each slot goes to one id. -/
theorem isMatching_matchingOf (hslots : slots.toList.Nodup) (hp : p.Owned (g.bipartite slots)) :
    g.IsMatching slots.toList (g.matchingOf slots p aborted).assignment where
  reference id slot h := by
    obtain ⟨i, j, hij, heq⟩ := mem_pairsOf.mp (Assignment.mem_pairs_ofList h)
    obtain ⟨rfl, rfl⟩ := Prod.mk.inj heq
    have hc := hp.candidate _ j hij
    rw [candidates_bipartite, Entry.mem_candidates] at hc
    exact ⟨_, List.getElem_mem _, (id_node (g.node i)).trans (id_node i), hc⟩
  mem_slots slot h := by
    obtain ⟨id, h⟩ := Assignment.mem_slots.mp h
    obtain ⟨_, j, _, heq⟩ := mem_pairsOf.mp (Assignment.mem_pairs_ofList h)
    obtain ⟨_, rfl⟩ := Prod.mk.inj heq
    exact Vector.mem_toList_iff.mpr (Vector.getElem_mem j.isLt)
  nodup := by
    apply Assignment.nodup_slots_ofList
    intro e he f hf hslot
    obtain ⟨i, j, hij, rfl⟩ := mem_pairsOf.mp he
    obtain ⟨k, l, hkl, rfl⟩ := mem_pairsOf.mp hf
    obtain rfl := slotIndex_unique hslots hslot
    have hid := congrArg (fun i => (g.entries.get i).id) (hp.slot_inj hij hkl)
    exact (id_node i).symm.trans (hid.trans (id_node k))

theorem finRange_map_id (g : Incidence) :
    (List.finRange g.entries.length).map (fun i => (g.entries.get i).id) = g.ids := by
  refine List.ext_getElem (by simp [ids]) fun i _ _ => ?_
  simp [ids]

theorem pairs_matchingOf (hids : g.ids.Nodup) :
    (g.matchingOf slots p aborted).assignment.pairs = g.pairsOf slots p := by
  rw [assignment_matchingOf, Assignment.pairs_ofList]
  rw [ids_pairsOf]
  rw [← finRange_map_id] at hids
  exact hids.sublist (List.filter_sublist.map _)

theorem unpaired_matchingOf (hids : g.ids.Nodup) :
    (g.matchingOf slots p aborted).unmatchedEquations =
      ((List.finRange g.entries.length).filter fun i => (p.slotOf i).isNone).map
        fun i => (g.entries.get i).id := by
  simp only [matchingOf, node_eq hids]
  rfl

theorem mem_slots_pairsOf (hids : g.ids.Nodup) (hp : p.Consistent (g.bipartite slots))
    {slot : Occurrence} : slot ∈ (g.pairsOf slots p).map (·.2) ↔
      ∃ j, (p.equationOf j).isSome ∧ slots.get j = slot := by
  rw [List.mem_map]
  constructor
  · rintro ⟨e, he, rfl⟩
    obtain ⟨i, j, hij, rfl⟩ := mem_pairsOf.mp he
    exact ⟨j, by simp [(hp.slotOf_iff _ j).mp hij], rfl⟩
  · rintro ⟨j, hj, rfl⟩
    obtain ⟨i, hi⟩ := Option.isSome_iff_exists.mp hj
    have hij : p.slotOf (g.node i) = some j := by
      rw [node_eq hids]
      exact (hp.slotOf_iff i j).mpr hi
    exact ⟨_, mem_pairsOf.mpr ⟨i, j, hij, rfl⟩, rfl⟩

theorem admits_matchingOf (hids : g.ids.Nodup) (hslots : slots.toList.Nodup)
    (hp : p.Consistent (g.bipartite slots)) : g.Admits (g.matchingOf slots p aborted) where
  isMatching := isMatching_matchingOf hslots hp.owned
  equations := by
    rw [Assignment.ids, pairs_matchingOf hids, ids_pairsOf, unpaired_matchingOf hids,
      ← finRange_map_id, ← List.map_append]
    simp only [node_eq hids]
    refine List.Perm.map _ ?_
    simpa using List.filter_append_perm (fun i => (p.slotOf i).isSome)
      (List.finRange g.entries.length)
  slots := by
    have hmatching : g.IsMatching slots.toList (g.matchingOf slots p aborted).assignment :=
      isMatching_matchingOf hslots hp.owned
    have hnodup := hmatching.nodup
    rw [Assignment.slots, pairs_matchingOf hids] at hnodup ⊢
    have hmatched : ((g.pairsOf slots p).map (·.2)).Perm
        (((List.finRange m).filter fun j => (p.equationOf j).isSome).map fun j => slots.get j) := by
      rw [List.perm_ext_iff_of_nodup hnodup]
      · intro slot
        simp [mem_slots_pairsOf hids hp]
      · refine List.Nodup.map_on ?_ ((List.nodup_finRange m).filter _)
        intro j _ k _ h
        exact slotIndex_unique hslots h
    have hall : slots.toList = (List.finRange m).map fun j => slots.get j :=
      List.ext_getElem (by simp) fun i _ _ => by simp [Vector.get]
    change List.Perm (_ ++ ((List.finRange m).filter fun j =>
      (p.equationOf j).isNone).map fun j => slots.get j) slots.toList
    refine (hmatched.append_right _).trans ?_
    rw [hall, ← List.map_append]
    refine List.Perm.map _ ?_
    simpa using List.filter_append_perm (fun j => (p.equationOf j).isSome) (List.finRange m)

end Incidence

end Causality
