import Causality.Proofs.Block.Decomposition
import Causality.Proofs.Matching.Models
import Mathlib.Combinatorics.Enumerative.DoubleCounting

/-!
# Loops are irreducible

The equations of a block reach each other. So some of them, but not all, always need a slot that
another one of the block determines, and reference more slots of the block than they are themselves.
No positions are needed for this: each block comes from a strongly connected component, whether or
not every component is listed.
-/

namespace Causality

/-! ### Components that are listed -/

namespace Digraph

variable {position : String → Option Int} {c : List String} {cs order : List (List String)}

theorem perm_of_sortMembers {d : List String} (h : sortMembers position c = .ok d) : d.Perm c := by
  simp only [sortMembers, bind_eq_ok, pure_eq_ok, mapM_eq_ok] at h
  obtain ⟨placed, hplaced, rfl⟩ := h
  have hmembers : c = placed.map (·.2) := by
    rw [← List.map_id c]
    refine Forall₂.map_eq (hplaced.imp ?_)
    rintro v w ⟨_, _, rfl⟩
    rfl
  rw [hmembers]
  exact (List.mergeSort_perm _ _).map _

theorem members_of_mem_all {keys : List Int} {r : Ranked} (h : r ∈ Ranked.all cs keys) :
    r.members ∈ cs := by
  obtain ⟨⟨⟨c, key⟩, i⟩, hmem, rfl⟩ := List.mem_map.mp h
  exact (List.of_mem_zip (List.fst_mem_of_mem_zipIdx hmem)).1

theorem mem_of_mem_release {components : List Ranked} {a : Agenda} {target : Nat} {r : Ranked}
    (h : r ∈ (a.release components target).ready) : r ∈ a.ready ∨ r ∈ components := by
  simp only [Agenda.release] at h
  split at h
  · split at h
    · next d hfind =>
      rcases Ranked.mem_enqueue.mp h with rfl | h
      · exact .inr (List.mem_of_find?_eq_some hfind)
      · exact .inl h
    · exact .inl h
  · exact .inl h

theorem mem_of_mem_foldl {components : List Ranked} {a : Agenda} {ts : List Nat} {r : Ranked}
    (h : r ∈ (ts.foldl (Agenda.release components) a).ready) : r ∈ a.ready ∨ r ∈ components := by
  induction ts generalizing a with
  | nil => exact .inl h
  | cons target ts ih =>
    rcases ih h with h | h
    · exact mem_of_mem_release h
    · exact .inr h

theorem mem_run {components : List Ranked} {targets : Nat → List Nat} {a : Agenda}
    (hready : ∀ r ∈ a.ready, r ∈ components) (h : c ∈ Agenda.run components targets a) :
    ∃ r ∈ components, r.members = c := by
  induction a using Agenda.run.induct components targets with
  | case1 a hnil =>
    rw [Agenda.run] at h
    split at h
    · cases h
    · next hcons => exact absurd (hnil.symm.trans hcons) (by simp)
  | case2 a r rest hcons ih =>
    rw [hcons] at hready
    rw [Agenda.run] at h
    split at h
    · next hnil => exact absurd (hcons.symm.trans hnil) (by simp)
    · next s others hsplit =>
      obtain ⟨rfl, rfl⟩ := List.cons.inj (hcons.symm.trans hsplit)
      rcases List.mem_cons.mp h with rfl | h
      · exact ⟨r, hready r List.mem_cons_self, rfl⟩
      · refine ih (fun s hs => ?_) h
        rcases mem_of_mem_foldl hs with hs | hs
        · exact hready s (List.mem_cons_of_mem _ hs)
        · exact hs

theorem exists_component {g : Digraph String} (h : g.orderComponents position cs = .ok order)
    (hc : c ∈ order) : ∃ d ∈ cs, c.Perm d := by
  simp only [orderComponents, orderComponentsBy, bind_eq_ok, pure_eq_ok, mapM_eq_ok] at h
  obtain ⟨sorted, hsorted, keys, _, links, _, rfl⟩ := h
  have hready : ∀ r ∈ (Agenda.start (Ranked.all sorted keys) (.ofLinks links)).ready,
      r ∈ Ranked.all sorted keys :=
    fun r hr => List.mem_of_mem_filter (Ranked.mem_foldr_enqueue.mp hr)
  obtain ⟨r, hr, rfl⟩ := mem_run hready hc
  obtain ⟨d, hd, hsort⟩ := Forall₂.exists_left hsorted (members_of_mem_all hr)
  exact ⟨d, hd, perm_of_sortMembers hsort⟩

/-- A path into `s` from outside enters it at some edge. -/
theorem Reaches.exists_edge {g : Digraph String} {u v : String} {s : Finset String}
    (h : g.Reaches u v) (hu : u ∉ s) (hv : v ∈ s) :
    ∃ x y, g.Reaches u x ∧ g.Edge x y ∧ g.Reaches y v ∧ x ∉ s ∧ y ∈ s := by
  induction h with
  | refl => exact absurd hv hu
  | @tail w v hw hedge ih =>
    by_cases hws : w ∈ s
    · obtain ⟨x, y, hux, hxy, hyw, hx, hy⟩ := ih hws
      exact ⟨x, y, hux, hxy, hyw.trans hedge.reaches, hx, hy⟩
    · exact ⟨w, v, hw, hedge, .refl, hws, hv⟩

end Digraph

/-! ### Blocks of a matching -/

/-- The slots of the block that the equations with these ids reference. -/
def Block.ownReferences (g : Incidence) (b : Block) (ids : Finset String) : Finset Occurrence :=
  b.slots.toFinset.filter fun slot => ∃ e ∈ g.entries, e.id ∈ ids ∧ slot ∈ e.references

/-- The block holds the equations of a class with the slots that they are assigned. The class is
strongly connected. -/
structure Block.IsComponent (g : Incidence) (a : Assignment) (b : Block) : Prop where
  slot : ∀ id ∈ b.ids, ∃ slot ∈ b.slots, (id, slot) ∈ a.pairs
  connected : ∀ u ∈ b.ids, ∀ v, v ∈ b.ids ↔
    (g.dependencies a).Reaches u v ∧ (g.dependencies a).Reaches v u

namespace Incidence

variable {g : Incidence} {a : Assignment} {slots : List Occurrence} {bs : List Block} {b : Block}
  {ids : Finset String}

theorem isComponent_of_blocks (h : g.blocks a = .ok bs) (hb : b ∈ bs) : b.IsComponent g a := by
  obtain ⟨order, parts, horder, hmembers, hblocks⟩ := members_of_blocks h
  obtain ⟨part, hpart, hofMembers⟩ := Forall₂.exists_left hblocks hb
  obtain ⟨_, _, rfl⟩ := Block.ofMembers_eq_ok.mp hofMembers
  obtain ⟨c, hc, hmember⟩ := Forall₂.exists_left hmembers hpart
  obtain ⟨d, hd, hperm⟩ := Digraph.exists_component horder hc
  have hconnected := ((g.dependencies a).areComponents (g.ids.filter a.contains)).connected d hd
  have hc : (part.map (·.1)).map (·.id) = c := by
    rw [List.map_map, ← List.map_id c]
    exact Forall₂.map_eq (hmember.flip.imp fun p id hp => hp.id_eq)
  constructor
  · intro id hid
    rw [Block.ids, hc] at hid
    obtain ⟨p, hp, hpe⟩ := Forall₂.exists_right hmember hid
    exact ⟨p.2, List.mem_map_of_mem hp, hpe.assigned⟩
  · intro u hu v
    rw [Block.ids, hc] at hu ⊢
    rw [hperm.mem_iff]
    exact hconnected u (hperm.mem_iff.mp hu) v

/-- Some slot of the block is referenced by the chosen equations but determined by another one. -/
theorem exists_foreign_slot (hn : a.slots.Nodup) (hb : b.IsComponent g a) (hne : ids.Nonempty)
    (hproper : ids ⊂ b.ids.toFinset) :
    ∃ slot ∈ b.ownReferences g ids, ∀ id ∈ ids, (id, slot) ∉ a.pairs := by
  obtain ⟨v, hv⟩ := hne
  obtain ⟨u, hu, hus⟩ := Finset.exists_of_ssubset hproper
  have hub := List.mem_toFinset.mp hu
  have hvb := List.mem_toFinset.mp (hproper.subset hv)
  obtain ⟨huv, hvu⟩ := (hb.connected u hub v).mp hvb
  obtain ⟨x, y, hux, hxy, hyv, hx, hy⟩ := huv.exists_edge hus hv
  have hxb : x ∈ b.ids :=
    (hb.connected u hub x).mpr ⟨hux, (hxy.reaches.trans hyv).trans hvu⟩
  obtain ⟨_, _, slot, hslot, e, he, rfl, hreference⟩ := (edge_dependencies hn).mp hxy
  obtain ⟨slot', hslot', hassigned⟩ := hb.slot x hxb
  obtain rfl := Assignment.slot_unique hslot hassigned
  refine ⟨slot, ?_, fun id hid hpair => ?_⟩
  · exact Finset.mem_filter.mpr ⟨List.mem_toFinset.mpr hslot', e, he, hy, hreference⟩
  · exact hx (Assignment.id_unique hn hpair hslot ▸ hid)

/-- The slots that the chosen equations are assigned are among those that they reference. -/
theorem card_le_card_assigned (ha : g.IsMatching slots a) (hb : b.IsComponent g a)
    (hids : ids ⊆ b.ids.toFinset) :
    ids.card ≤
      ((b.ownReferences g ids).filter fun slot => ∃ id ∈ ids, (id, slot) ∈ a.pairs).card := by
  refine Finset.card_le_card_of_forall_subsingleton (fun id slot => (id, slot) ∈ a.pairs) ?_ ?_
  · intro id hid
    obtain ⟨slot, hslot, hassigned⟩ := hb.slot id (List.mem_toFinset.mp (hids hid))
    obtain ⟨e, he, rfl, hreference⟩ := ha.reference id slot hassigned
    refine ⟨slot, Finset.mem_filter.mpr ⟨?_, e.id, hid, hassigned⟩, hassigned⟩
    exact Finset.mem_filter.mpr ⟨List.mem_toFinset.mpr hslot, e, he, hid, hreference⟩
  · rintro slot _ id ⟨_, hid⟩ id' ⟨_, hid'⟩
    exact Assignment.id_unique ha.nodup hid hid'

/-- Whatever the matching, some but not all of the equations of a block reference more slots of the
block than they are. -/
theorem IsMatching.card_lt_ownReferences (ha : g.IsMatching slots a) (h : g.blocks a = .ok bs)
    (hb : b ∈ bs) (hne : ids.Nonempty) (hproper : ids ⊂ b.ids.toFinset) :
    ids.card < (b.ownReferences g ids).card := by
  have hcomponent := isComponent_of_blocks h hb
  obtain ⟨slot, hslot, hforeign⟩ := exists_foreign_slot ha.nodup hcomponent hne hproper
  refine (card_le_card_assigned ha hcomponent hproper.subset).trans_lt
    (Finset.card_lt_card (Finset.filter_ssubset.mpr ⟨slot, hslot, ?_⟩))
  rintro ⟨id, hid, hpair⟩
  exact hforeign id hid hpair

end Incidence

/-- Of the equations of a block, some but not all reference more slots of the block than they are,
so they cannot be solved for as many slots ahead of the others, however the slots are paired. -/
theorem Model.loops_are_irreducible (m : Model) (g : Incidence) (maxSteps : Option Int)
    (bs : List Block) (h : g.blocks (m.matching g maxSteps).assignment = .ok bs) (b : Block)
    (hb : b ∈ bs) (ids : Finset String) (hne : ids.Nonempty) (hproper : ids ⊂ b.ids.toFinset) :
    ids.card < (b.ownReferences g ids).card ∧
      ∀ taken : Finset Occurrence, taken.card = ids.card → ¬ b.ownReferences g ids ⊆ taken := by
  have hlt := (m.isMatching_matching g maxSteps).card_lt_ownReferences h hb hne hproper
  refine ⟨hlt, fun taken hcard hsubset => ?_⟩
  have hle := Finset.card_le_card hsubset
  omega

/-- Of the loop `x + y = 3`, `x = y`, each equation on its own references both unknowns. -/
theorem coupled_loop_is_irreducible : ∃ g bs b, Model.coupled.incidence true = .ok g ∧
    g.blocks (Model.coupled.matching g none).assignment = .ok bs ∧ b ∈ bs ∧
    b.ids = ["eq[1]", "eq[2]"] ∧ 1 < (b.ownReferences g {"eq[1]"}).card := by
  have hblocks : (Model.coupled.incidence true).bind (fun g =>
      (g.blocks (Model.coupled.matching g none).assignment).map fun bs => bs.map (·.ids)) =
      .ok [["eq[1]", "eq[2]"], ["eq[0]"]] := by cbv
  obtain ⟨g, hg, hblocks⟩ := bind_eq_ok.mp hblocks
  obtain ⟨bs, hbs, hids⟩ := map_eq_ok.mp hblocks
  obtain ⟨b, hb, hloop⟩ : ∃ b ∈ bs, b.ids = ["eq[1]", "eq[2]"] := by
    rw [← List.mem_map, hids]
    exact List.mem_cons_self
  have hproper : {"eq[1]"} ⊂ b.ids.toFinset := by
    rw [hloop]
    decide
  have hirreducible := Model.loops_are_irreducible .coupled g none bs hbs b hb {"eq[1]"}
    (Finset.singleton_nonempty _) hproper
  exact ⟨g, bs, b, hg, hbs, hb, hloop, hirreducible.1⟩

end Causality
