import Causality.Block.Decomposition
import Causality.Proofs.Digraph.Order
import Causality.Proofs.Digraph.Traversal
import Causality.Proofs.Matching.Assignment

/-!
# Order of the assigned equations

An assigned equation has an edge to the other assigned ones that reference its slot. For a matching
the components of these edges can always be ordered, and they hold each assigned equation once.
-/

namespace Causality

namespace Assignment

variable {a : Assignment} {id : String} {slot : Occurrence}

theorem owner?_iff (hn : a.slots.Nodup) : a.owner? slot = some id ↔ (id, slot) ∈ a.pairs := by
  rw [owner?, Option.map_eq_some_iff]
  constructor
  · rintro ⟨p, hp, rfl⟩
    obtain rfl : p.2 = slot := by simpa using List.find?_some hp
    exact List.mem_reverse.mp (List.mem_of_find?_eq_some hp)
  · intro h
    cases hp : a.pairs.reverse.find? fun p => p.2 = slot with
    | none =>
      have hnone := List.find?_eq_none.mp hp _ (List.mem_reverse.mpr h)
      simp at hnone
    | some p =>
      obtain ⟨id', slot'⟩ := p
      obtain rfl : slot' = slot := by simpa using List.find?_some hp
      have hmem := List.mem_reverse.mp (List.mem_of_find?_eq_some hp)
      exact ⟨_, rfl, id_unique hn hmem h⟩

theorem slotOf?_iff : a.slotOf? id = some slot ↔ (id, slot) ∈ a.pairs := by
  rw [slotOf?]
  constructor
  · intro h
    obtain ⟨_, _, hsplit, _⟩ := List.lookup_eq_some_iff.mp h
    simp [hsplit]
  · intro h
    cases hl : a.pairs.lookup id with
    | none =>
      have hnone := List.lookup_eq_none_iff.mp hl _ h
      simp at hnone
    | some slot' =>
      obtain ⟨_, _, hsplit, _⟩ := List.lookup_eq_some_iff.mp hl
      have hmem : (id, slot') ∈ a.pairs := by simp [hsplit]
      rw [slot_unique hmem h]

end Assignment

namespace Incidence

variable {g : Incidence} {a : Assignment} {slots : List Occurrence} {e f : Entry}
  {u v id : String}

theorem entry_unique (hids : g.ids.Nodup) (he : e ∈ g.entries) (hf : f ∈ g.entries)
    (h : e.id = f.id) : e = f :=
  List.inj_on_of_nodup_map hids he hf h

theorem entryOf_iff (hids : g.ids.Nodup) : g.entry? id = some e ↔ e ∈ g.entries ∧ e.id = id := by
  unfold entry?
  constructor
  · intro h
    exact ⟨List.mem_of_find?_eq_some h, by simpa using List.find?_some h⟩
  · rintro ⟨he, rfl⟩
    cases hf : g.entries.find? fun f => f.id = e.id with
    | none =>
      have hnone := List.find?_eq_none.mp hf e he
      simp at hnone
    | some f =>
      have hid : f.id = e.id := by simpa using List.find?_some hf
      rw [entry_unique hids (List.mem_of_find?_eq_some hf) he hid]

theorem entry_eq_ok (hids : g.ids.Nodup) : g.entry id = .ok e ↔ e ∈ g.entries ∧ e.id = id := by
  rw [← entryOf_iff hids, entry]
  cases g.entry? id <;> simp

theorem mem_of_latest? (h : g.latest? id = some e) : e ∈ g.entries ∧ e.id = id :=
  ⟨List.mem_reverse.mp (List.mem_of_find?_eq_some h), by simpa using List.find?_some h⟩

theorem latest?_eq_some (hids : g.ids.Nodup) :
    g.latest? id = some e ↔ e ∈ g.entries ∧ e.id = id := by
  refine ⟨mem_of_latest?, ?_⟩
  rintro ⟨he, rfl⟩
  have hsome : (g.latest? e.id).isSome :=
    List.find?_isSome.mpr ⟨e, List.mem_reverse.mpr he, by simp⟩
  obtain ⟨f, hf⟩ := Option.isSome_iff_exists.mp hsome
  obtain ⟨hmem, hid⟩ := mem_of_latest? hf
  rw [hf, entry_unique hids hmem he hid]

structure Feeds (g : Incidence) (a : Assignment) (u v : String) : Prop where
  ne : u ≠ v
  assigned : v ∈ a.ids
  referenced : ∃ slot, (u, slot) ∈ a.pairs ∧ ∃ e ∈ g.entries, e.id = v ∧ slot ∈ e.references

theorem rows_dependencies : ((g.dependencies a).rows.map (·.1)) = a.ids := by
  simp [dependencies, Assignment.ids, Function.comp_def]

theorem nodup_rows : ((g.dependencies a).rows.map (·.1)).Nodup := by
  rw [rows_dependencies]
  exact a.nodup_ids

theorem edge_dependencies (hn : a.slots.Nodup) :
    (g.dependencies a).Edge u v ↔ g.Feeds a u v := by
  have hmem : ∀ slot, v ∈ g.dependents a u slot ↔
      u ≠ v ∧ v ∈ a.ids ∧ ∃ e ∈ g.entries, e.id = v ∧ slot ∈ e.references := by
    intro slot
    simp only [dependents, List.mem_mergeSort, List.mem_map, List.mem_filter, Bool.and_eq_true,
      List.contains_iff_mem, decide_eq_true_eq, Assignment.contains_iff]
    constructor
    · rintro ⟨e, ⟨he, ⟨hslot, hne⟩, hassigned⟩, rfl⟩
      exact ⟨Ne.symm hne, hassigned, e, he, rfl, hslot⟩
    · rintro ⟨hne, hassigned, e, he, rfl, hslot⟩
      exact ⟨e, ⟨he, ⟨hslot, Ne.symm hne⟩, hassigned⟩, rfl⟩
  rw [Digraph.edge_iff nodup_rows]
  constructor
  · rintro ⟨ws, hws, hv⟩
    simp only [dependencies, List.mem_map, Prod.exists, Prod.mk.injEq] at hws
    obtain ⟨_, slot, hslot, rfl, rfl⟩ := hws
    rw [if_pos ((Assignment.owner?_iff hn).mpr hslot), hmem] at hv
    exact ⟨hv.1, hv.2.1, slot, hslot, hv.2.2⟩
  · rintro ⟨hne, hassigned, slot, hslot, he⟩
    refine ⟨g.dependents a u slot, List.mem_map.mpr ⟨(u, slot), hslot, ?_⟩, ?_⟩
    · simp [(Assignment.owner?_iff hn).mpr hslot]
    · exact (hmem slot).mpr ⟨hne, hassigned, he⟩

theorem Feeds.source (h : g.Feeds a u v) : u ∈ a.ids := by
  obtain ⟨slot, hslot, _⟩ := h.referenced
  exact Assignment.mem_ids.mpr ⟨slot, hslot⟩

/-! ### Positions -/

/-- Two equations are at different places. -/
def Placed (g : Incidence) : Prop := (g.entries.map (·.position)).Nodup

theorem position?_of_mem (hids : g.ids.Nodup) (he : e ∈ g.entries) :
    g.position? e.id = some (e.position : Int) := by
  rw [position?, (latest?_eq_some hids).mpr ⟨he, rfl⟩]
  rfl

theorem placeIn_of_mem (hids : g.ids.Nodup) (he : e ∈ g.entries) :
    placeIn g.position? e.id = e.position := by
  rw [placeIn, position?_of_mem hids he]
  rfl

theorem placeIn_inj (hids : g.ids.Nodup) (hplaced : g.Placed) (hu : u ∈ g.ids) (hv : v ∈ g.ids)
    (h : placeIn g.position? u = placeIn g.position? v) : u = v := by
  obtain ⟨e, he, rfl⟩ := mem_ids.mp hu
  obtain ⟨f, hf, rfl⟩ := mem_ids.mp hv
  rw [placeIn_of_mem hids he, placeIn_of_mem hids hf, Int.natCast_inj] at h
  rw [List.inj_on_of_nodup_map hplaced he hf h]

def placeOf (g : Incidence) (id : String) : Nat := (placeIn g.position? id).toNat

theorem placeOf_of_mem (hids : g.ids.Nodup) (he : e ∈ g.entries) : g.placeOf e.id = e.position := by
  rw [placeOf, placeIn_of_mem hids he, Int.toNat_natCast]

theorem natCast_placeOf (hids : g.ids.Nodup) (hu : u ∈ g.ids) :
    (g.placeOf u : Int) = placeIn g.position? u := by
  obtain ⟨e, he, rfl⟩ := mem_ids.mp hu
  rw [placeOf_of_mem hids he, placeIn_of_mem hids he]

/-! ### Components in order -/

/-- The assigned equations fall into the listed classes of those that reach each other, each by
position, and the classes are dispatched. -/
structure IsOrder (g : Incidence) (a : Assignment) (order : List (List String)) : Prop where
  perm : order.flatten.Perm a.ids
  nonempty : [] ∉ order
  connected : ∀ c ∈ order, ∀ u ∈ c, ∀ v, v ∈ c ↔
    (g.dependencies a).Reaches u v ∧ (g.dependencies a).Reaches v u
  sorted : ∀ c ∈ order, c.Pairwise fun u v => placeIn g.position? u ≤ placeIn g.position? v
  dispatched : Dispatched (g.dependencies a).Linked (keyOf g.position?) order

theorem perm_components (h : g.IsMatching slots a) :
    (((g.dependencies a).components (g.ids.filter a.contains)).flatten).Perm a.ids := by
  have hc := (g.dependencies a).areComponents (g.ids.filter a.contains)
  rw [List.perm_ext_iff_of_nodup hc.nodup a.nodup_ids]
  intro v
  have hroot : ∀ v, v ∈ g.ids.filter a.contains ↔ v ∈ a.ids := by
    intro v
    rw [List.mem_filter, Assignment.contains_iff]
    exact and_iff_right_of_imp h.mem_ids
  rw [hc.mem_iff]
  constructor
  · rintro ⟨r, hr, hrv⟩
    refine hrv.mem ?_ ((hroot r).mp hr)
    intro x _ y hxy
    exact ((edge_dependencies h.nodup).mp hxy).assigned
  · intro hv
    exact ⟨v, (hroot v).mpr hv, .refl⟩

theorem components_ok (hids : g.ids.Nodup) (hplaced : g.Placed) (h : g.IsMatching slots a) :
    ∃ order, g.components a = .ok order ∧ g.IsOrder a order := by
  have hc := (g.dependencies a).areComponents (g.ids.filter a.contains)
  have hperm := perm_components h
  have hmem : ∀ v ∈ ((g.dependencies a).components (g.ids.filter a.contains)).flatten,
      v ∈ g.ids := fun v hv => h.mem_ids (hperm.subset hv)
  have hclasses : (g.dependencies a).Placed g.position?
      ((g.dependencies a).components (g.ids.filter a.contains)) := by
    refine ⟨hc.nodup, hc.nonempty, nodup_rows, fun u v huv => ?_, fun v hv => ?_, ?_⟩
    · have hfeeds := (edge_dependencies h.nodup).mp huv
      exact ⟨hperm.symm.subset hfeeds.source, hperm.symm.subset hfeeds.assigned⟩
    · obtain ⟨e, he, rfl⟩ := mem_ids.mp (hmem v hv)
      simp [position?_of_mem hids he]
    · intro u hu v hv heq
      exact placeIn_inj hids hplaced (hmem u hu) (hmem v hv) (congrArg (·.getD 0) heq)
  obtain ⟨order, horder, hordered⟩ := hclasses.orderComponents_ok hc.connected
  have hs := hc.sorted g.position?
  refine ⟨order, horder, ?_, ?_, ?_, ?_, hordered.dispatched⟩
  · exact hordered.perm.flatten.trans (Digraph.perm_flatten_byPlace.trans hperm)
  · exact fun hnil => hs.nonempty (hordered.perm.subset hnil)
  · exact fun c hc => hs.connected c (hordered.perm.subset hc)
  · intro c hc
    obtain ⟨e, _, rfl⟩ := List.mem_map.mp (hordered.perm.subset hc)
    exact pairwise_byPlace

end Incidence

end Causality
