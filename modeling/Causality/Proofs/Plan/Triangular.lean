import Causality.Proofs.Plan.Stages

/-!
# Block lower triangular form

The incidence matrix of a plan has one row for each equation and one column for each slot. In block
order every matched equation meets its slot on the diagonal, and what an equation references beyond
its own block is determined in an earlier one.
-/

namespace Causality

namespace Incidence

variable {g : Incidence} {rows : List String} {columns : List Occurrence} {id : String}
  {slot : Occurrence} {e : Entry}

def mark (g : Incidence) (id : String) (slot : Occurrence) : Nat :=
  if g.entries.any fun e => e.id = id && e.references.contains slot then 1 else 0

theorem marks_eq (hn : columns.Nodup) :
    e.marks columns = columns.map fun slot => if e.references.contains slot then 1 else 0 := by
  induction columns with
  | nil => rfl
  | cons o rest ih =>
    rw [List.nodup_cons] at hn
    rw [Entry.marks, ih hn.2, List.map_cons]
    simp [hn.1]

theorem mark_eq (hids : g.ids.Nodup) (he : e ∈ g.entries) :
    g.mark e.id slot = if e.references.contains slot then 1 else 0 := by
  have hany : (g.entries.any fun f => f.id = e.id && f.references.contains slot) =
      e.references.contains slot := by
    rw [Bool.eq_iff_iff, List.any_eq_true]
    simp only [Bool.and_eq_true, decide_eq_true_eq]
    constructor
    · rintro ⟨f, hf, hid, hslot⟩
      rwa [← entry_unique hids hf he hid]
    · exact fun hslot => ⟨e, he, rfl, hslot⟩
  rw [mark, hany]

theorem mark_eq_one :
    g.mark id slot = 1 ↔ ∃ e ∈ g.entries, e.id = id ∧ slot ∈ e.references := by
  simp [mark]

theorem mark_eq_zero (h : ¬ ∃ e ∈ g.entries, e.id = id ∧ slot ∈ e.references) :
    g.mark id slot = 0 := by
  simpa [mark] using h

theorem matrix_eq_ok (hids : g.ids.Nodup) (hrows : ∀ id ∈ rows, id ∈ g.ids)
    (hcolumns : columns.Nodup) :
    g.matrix columns rows = .ok (rows.map fun id => columns.map (g.mark id)) := by
  refine mapM_eq_ok_map fun id hid => ?_
  obtain ⟨e, he, rfl⟩ := mem_ids.mp (hrows id hid)
  rw [(entry_eq_ok hids).mpr ⟨he, rfl⟩]
  refine congrArg Except.ok ?_
  rw [marks_eq hcolumns]
  exact List.map_congr_left fun slot _ => (mark_eq hids he).symm

theorem IsMatching.mark_eq_one {a : Assignment} {slots : List Occurrence} (h : g.IsMatching slots a)
    (hpair : (id, slot) ∈ a.pairs) : g.mark id slot = 1 :=
  Incidence.mark_eq_one.mpr (h.reference id slot hpair)

/-- An equation references no slot that a later block determines. -/
theorem Decomposed.mark_eq_zero {a : Assignment} {order : List (List String)}
    {parts : List (List (Entry × Occurrence))} {bs : List Block}
    (h : g.Decomposed a order parts bs) (hn : a.slots.Nodup) : bs.Pairwise fun b c =>
      ∀ id ∈ b.ids, ∀ slot ∈ c.slots, g.mark id slot = 0 := by
  refine ((h.not_feeds hn).and h.disjoint_ids).imp_of_mem ?_
  rintro b c hb hc ⟨hfeeds, hdisjoint⟩ id hid slot hslot
  refine Incidence.mark_eq_zero fun hreference => ?_
  obtain ⟨owner, howner, hpair⟩ := h.exists_id hc hslot
  refine hfeeds owner howner id hid ⟨?_, ?_, slot, hpair, hreference⟩
  · rintro rfl
    exact hdisjoint owner hid howner
  · exact h.perm_ids.subset (List.mem_flatMap.mpr ⟨b, hb, hid⟩)

end Incidence

/-! ### Cells of the matrix -/

namespace Plan

variable {p : Plan}

def rowIds (p : Plan) : List String := p.blocks.flatMap (·.ids) ++ p.matching.unmatchedEquations

def columnSlots (p : Plan) : List Occurrence :=
  p.blocks.flatMap (·.slots) ++ p.matching.unmatchedSlots

def cell (rows : List (List Nat)) (i j : Nat) : Option Nat := rows[i]?.bind fun row => row[j]?

/-- Each equation has one row and each slot one column. The pairs of the matching come first and
lie on the diagonal. No row of a block has a mark in a column of a later one. -/
structure IsTriangular (p : Plan) (slots : List Occurrence) (rows : List (List Nat)) : Prop where
  rowIds_perm : p.rowIds.Perm p.incidence.ids
  rowIds_nodup : p.rowIds.Nodup
  columnSlots_perm : p.columnSlots.Perm slots
  columnSlots_nodup : p.columnSlots.Nodup
  height : rows.length = p.incidence.entries.length
  width : ∀ row ∈ rows, row.length = slots.length
  cell_eq : ∀ i j id slot, p.rowIds[i]? = some id → p.columnSlots[j]? = some slot →
    cell rows i j = some (p.incidence.mark id slot)
  matched_rows : (p.blocks.flatMap (·.ids)).length = p.matching.assignment.size
  matched_columns : (p.blocks.flatMap (·.slots)).length = p.matching.assignment.size
  diagonal : ∀ i < p.matching.assignment.size, cell rows i i = some 1
  zero : ∀ before b between c after, p.blocks = before ++ b :: between ++ c :: after →
    ∀ i j id slot, p.rowIds[i]? = some id → id ∈ b.ids →
      p.columnSlots[j]? = some slot → slot ∈ c.slots → cell rows i j = some 0

theorem cell_map {ids : List String} {slots : List Occurrence} {f : String → Occurrence → Nat}
    {i j : Nat} {id : String} {slot : Occurrence} (hi : ids[i]? = some id)
    (hj : slots[j]? = some slot) :
    cell (ids.map fun id => slots.map (f id)) i j = some (f id slot) := by
  simp [cell, hi, hj]

theorem getElem?_map_append {α β : Type} {f : α → β} {xs : List α} {more : List β} {i : Nat}
    {x : α} (h : xs[i]? = some x) : (xs.map f ++ more)[i]? = some (f x) := by
  rw [List.getElem?_append_left, List.getElem?_map, h]
  · rfl
  · rw [List.length_map]
    exact (List.getElem?_eq_some_iff.mp h).1

end Plan

/-- The matrix of a plan has block lower triangular form, even if the model is not well posed or
the search for the matching was stopped. -/
theorem Model.matrix_is_triangular (m : Model) (settings : Settings) (p : Plan)
    (h : m.analyze settings = .ok p) :
    ∃ rows, p.matrix = .ok rows ∧ p.IsTriangular (m.slots p.incidence) rows := by
  obtain ⟨_, _, hg, hx, _⟩ := Model.analyze_eq_ok.mp h
  have hids := m.nodup_ids hg
  have hadmits := m.admits h
  have hmatching := hadmits.isMatching
  have hslots : p.matching.slots = m.slots p.incidence := by rw [hx, m.slots_matching]
  obtain ⟨order, parts, hd⟩ := m.exists_decomposed h
  have hrows : p.rowIds.Perm p.incidence.ids :=
    (hd.perm_ids.append_right _).trans hadmits.equations
  have hcolumns : p.columnSlots.Perm (m.slots p.incidence) :=
    hslots ▸ (hd.perm_slots.append_right _).trans hadmits.slots
  have hcolumnsNodup := hcolumns.nodup_iff.mpr (m.nodup_slots p.incidence)
  have hmatrix : p.matrix =
      .ok (p.rowIds.map fun id => p.columnSlots.map (p.incidence.mark id)) :=
    Incidence.matrix_eq_ok hids (fun id hid => hrows.subset hid) hcolumnsNodup
  have hzero := hd.mark_eq_zero hmatching.nodup
  refine ⟨_, hmatrix, ?_⟩
  exact
    { rowIds_perm := hrows
      rowIds_nodup := hrows.nodup_iff.mpr hids
      columnSlots_perm := hcolumns
      columnSlots_nodup := hcolumnsNodup
      height := by
        rw [List.length_map, hrows.length_eq, Incidence.ids, List.length_map]
      width := by
        intro row hrow
        obtain ⟨id, _, rfl⟩ := List.mem_map.mp hrow
        rw [List.length_map, hcolumns.length_eq]
      cell_eq := fun i j id slot hi hj => Plan.cell_map hi hj
      matched_rows := by
        rw [hd.perm_ids.length_eq, Assignment.ids, List.length_map, Assignment.size]
      matched_columns := by
        rw [hd.perm_slots.length_eq, Assignment.slots, List.length_map, Assignment.size]
      diagonal := by
        intro i hi
        have hlength := hd.perm_pairs.length_eq
        obtain ⟨q, hq⟩ : ∃ q, (Incidence.Decomposed.pairs parts)[i]? = some q :=
          ⟨_, List.getElem?_eq_getElem (hi.trans_eq hlength.symm)⟩
        have hid : p.rowIds[i]? = some q.1 := by
          rw [Plan.rowIds, ← hd.ids_pairs]
          exact Plan.getElem?_map_append hq
        have hslot : p.columnSlots[i]? = some q.2 := by
          rw [Plan.columnSlots, ← hd.slots_pairs]
          exact Plan.getElem?_map_append hq
        rw [Plan.cell_map hid hslot, hmatching.mark_eq_one (hd.mem_pairs (List.mem_of_getElem? hq))]
      zero := by
        intro before b between c after hblocks i j id slot hi hid hj hslot
        rw [hblocks, List.append_assoc, List.cons_append] at hzero
        have hb := (List.pairwise_append.mp hzero).2.1
        rw [Plan.cell_map hi hj, List.rel_of_pairwise_cons hb (by simp) id hid slot hslot] }

/-- The two equations that share `x` and `y` are a block ahead of `z * z = x`. -/
theorem matrix_coupled_is_triangular : ∃ p rows, Model.coupled.analyze .standard = .ok p ∧
    p.matrix = .ok rows ∧ p.blocks.map (·.size) = [2, 1] ∧
    p.IsTriangular (Model.coupled.slots p.incidence) rows := by
  have hsizes : (Model.coupled.analyze .standard).map (fun p => p.blocks.map (·.size)) =
      .ok [2, 1] := by cbv
  obtain ⟨p, h, hsizes⟩ := map_eq_ok.mp hsizes
  obtain ⟨rows, hrows, htriangular⟩ := Model.matrix_is_triangular .coupled .standard p h
  exact ⟨p, rows, h, hrows, hsizes, htriangular⟩

end Causality
