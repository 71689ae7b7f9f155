import Causality.Proofs.Matching.Models

/-!
# Perfect matchings

A matching is perfect if it assigns every equation and leaves no slot over. If there is a perfect
matching, the one that is found without a bound is perfect, too.
-/

namespace Causality

namespace Incidence

/-- Every equation is assigned and no slot is left over. -/
structure IsPerfect (g : Incidence) (slots : List Occurrence) (a : Assignment) : Prop
    extends g.IsMatching slots a where
  covers : ∀ e ∈ g.entries, e.id ∈ a.ids
  used : ∀ slot ∈ slots, slot ∈ a.slots

variable {g : Incidence} {slots : List Occurrence} {a b : Assignment} {u : String}
  {slot : Occurrence} {x : Matching}

theorem IsMatching.of_perm {slots' : List Occurrence} (ha : g.IsMatching slots a)
    (hslots : slots.Perm slots') : g.IsMatching slots' a :=
  { ha with mem_slots := fun slot hslot => hslots.subset (ha.mem_slots slot hslot) }

namespace IsPerfect

theorem of_perm {slots' : List Occurrence} (ha : g.IsPerfect slots a)
    (hslots : slots.Perm slots') : g.IsPerfect slots' a where
  toIsMatching := ha.toIsMatching.of_perm hslots
  covers := ha.covers
  used slot hslot := ha.used slot (hslots.symm.subset hslot)

theorem mem_ids_iff (ha : g.IsPerfect slots a) : u ∈ a.ids ↔ u ∈ g.ids := by
  refine ⟨ha.mem_ids, fun hu => ?_⟩
  obtain ⟨e, he, rfl⟩ := Incidence.mem_ids.mp hu
  exact ha.covers e he

theorem exists_slot (ha : g.IsPerfect slots a) (hu : u ∈ g.ids) : ∃ slot, (u, slot) ∈ a.pairs :=
  Assignment.mem_ids.mp (ha.mem_ids_iff.mpr hu)

/-- The equation that is assigned the slot of another one. -/
theorem exists_owner (ha : g.IsPerfect slots a) (hb : g.IsPerfect slots b)
    (hu : (u, slot) ∈ b.pairs) : ∃ w, (w, slot) ∈ a.pairs :=
  Assignment.mem_slots.mp (ha.used slot (hb.mem_slots slot (Assignment.mem_slots.mpr ⟨u, hu⟩)))

theorem perm_ids (ha : g.IsPerfect slots a) (hids : g.ids.Nodup) : a.ids.Perm g.ids := by
  rw [List.perm_ext_iff_of_nodup a.nodup_ids hids]
  exact fun u => ha.mem_ids_iff

theorem perm_slots (ha : g.IsPerfect slots a) (hslots : slots.Nodup) : a.slots.Perm slots := by
  rw [List.perm_ext_iff_of_nodup ha.nodup hslots]
  exact fun slot => ⟨ha.mem_slots slot, ha.used slot⟩

theorem size_eq (ha : g.IsPerfect slots a) (hids : g.ids.Nodup) (hslots : slots.Nodup) :
    a.size = g.ids.length ∧ a.size = slots.length := by
  rw [← (ha.perm_ids hids).length_eq, ← (ha.perm_slots hslots).length_eq, Assignment.ids,
    Assignment.slots, List.length_map, List.length_map]
  exact ⟨rfl, rfl⟩

end IsPerfect

theorem Admits.size_add (h : g.Admits x) :
    x.assignment.size + x.unmatchedEquations.length = g.ids.length ∧
      x.assignment.size + x.unmatchedSlots.length = x.slots.length := by
  rw [← h.equations.length_eq, ← h.slots.length_eq, List.length_append, List.length_append,
    Assignment.ids, Assignment.slots, List.length_map, List.length_map]
  exact ⟨rfl, rfl⟩

theorem Admits.isPerfect (h : g.Admits x) (hequations : x.unmatchedEquations = [])
    (hslots : x.unmatchedSlots = []) : g.IsPerfect x.slots x.assignment where
  toIsMatching := h.isMatching
  covers e he := by
    have hperm := h.equations
    rw [hequations, List.append_nil] at hperm
    exact hperm.symm.subset (List.mem_map_of_mem he)
  used slot hslot := by
    have hperm := h.slots
    rw [hslots, List.append_nil] at hperm
    exact hperm.symm.subset hslot

end Incidence

theorem Matching.isTotal_iff {x : Matching} : x.isTotal = true ↔
    x.unmatchedEquations = [] ∧ x.unmatchedSlots = [] ∧ x.aborted = false := by
  simp [Matching.isTotal, and_assoc]

variable {m : Model} {includeInitial : Bool} {g : Incidence} {a : Assignment}

theorem Model.isPerfect_matching (h : m.incidence includeInitial = .ok g)
    (ha : g.IsPerfect (m.slots g) a) :
    (m.matching g none).unmatchedEquations = [] ∧
      g.IsPerfect (m.slots g) (m.matching g none).assignment := by
  have hadmits := m.matching_admits h none
  have hsize := ha.size_eq (m.nodup_ids h) (m.nodup_slots g)
  have hle := m.size_le_matching h ha.toIsMatching
  have hadd := hadmits.size_add
  rw [m.slots_matching] at hadd
  have hequations : (m.matching g none).unmatchedEquations = [] := by
    apply List.length_eq_zero_iff.mp
    omega
  have hslots : (m.matching g none).unmatchedSlots = [] := by
    apply List.length_eq_zero_iff.mp
    omega
  exact ⟨hequations, hadmits.isPerfect hequations hslots⟩

end Causality
