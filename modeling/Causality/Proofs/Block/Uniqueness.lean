import Causality.Proofs.Block.Decomposition
import Causality.Proofs.Matching.Perfect
import Mathlib.Dynamics.PeriodicPts.Lemmas

/-!
# Independence of the matching

Two perfect matchings of the same equations and slots give the same blocks. The equation that one
of them assigns the slot of another under the second is on a cycle with it, so that both have the
same classes of equations and the same links between them.
-/

namespace Causality

namespace Incidence

variable {g : Incidence} {slots : List Occurrence} {a b : Assignment} {u v w : String}
  {slot : Occurrence}

namespace IsPerfect

/-- An equation is reached from the owner of any slot that it references. -/
theorem reaches_of_reference (ha : g.IsPerfect slots a) (hw : (w, slot) ∈ a.pairs)
    (hv : ∃ e ∈ g.entries, e.id = v ∧ slot ∈ e.references) : (g.dependencies a).Reaches w v := by
  by_cases hne : w = v
  · subst hne
    exact .refl
  · obtain ⟨e, he, rfl, hslot⟩ := hv
    exact .single ((edge_dependencies ha.nodup).mpr
      ⟨hne, ha.covers e he, slot, hw, e, he, rfl, hslot⟩)

/-- Following the owners leads around a cycle, each of them reaching the one before. -/
theorem reaches_owner (ha : g.IsPerfect slots a) (hb : g.IsPerfect slots b)
    (hu : (u, slot) ∈ b.pairs) (hw : (w, slot) ∈ a.pairs) : (g.dependencies a).Reaches u w := by
  have howner : ∀ x : {x // x ∈ g.ids}, ∃ y : {y // y ∈ g.ids}, ∃ slot,
      (x.1, slot) ∈ b.pairs ∧ (y.1, slot) ∈ a.pairs := by
    rintro ⟨x, hx⟩
    obtain ⟨slot, hslot⟩ := hb.exists_slot hx
    obtain ⟨y, hy⟩ := ha.exists_owner hb hslot
    exact ⟨⟨y, ha.mem_ids (Assignment.mem_ids.mpr ⟨slot, hy⟩)⟩, slot, hslot, hy⟩
  choose owner hownerSlot using howner
  have hinjective : Function.Injective owner := by
    intro x y hxy
    obtain ⟨s, hxs, hs⟩ := hownerSlot x
    obtain ⟨t, hyt, ht⟩ := hownerSlot y
    rw [hxy] at hs
    obtain rfl := Assignment.slot_unique hs ht
    exact Subtype.ext (Assignment.id_unique hb.nodup hxs hyt)
  have hback : ∀ x k, (g.dependencies a).Reaches (owner^[k] x).1 x.1 := by
    intro x k
    induction k with
    | zero => exact .refl
    | succ k ih =>
      obtain ⟨s, hs, ht⟩ := hownerSlot (owner^[k] x)
      rw [Function.iterate_succ_apply']
      exact (ha.reaches_of_reference ht (hb.reference _ s hs)).trans ih
  have humem : u ∈ g.ids := hb.mem_ids (Assignment.mem_ids.mpr ⟨slot, hu⟩)
  have hw' : (owner ⟨u, humem⟩).1 = w := by
    obtain ⟨s, hs, ht⟩ := hownerSlot ⟨u, humem⟩
    obtain rfl := Assignment.slot_unique hs hu
    exact Assignment.id_unique ha.nodup ht hw
  obtain ⟨n, hn, hperiodic⟩ := hinjective.mem_periodicPts ⟨u, humem⟩
  obtain ⟨n, rfl⟩ := Nat.exists_eq_succ_of_ne_zero hn.ne'
  have hreaches := hback (owner ⟨u, humem⟩) n
  rw [← Function.iterate_succ_apply, hperiodic, hw'] at hreaches
  exact hreaches

theorem owner_reaches (ha : g.IsPerfect slots a) (hb : g.IsPerfect slots b)
    (hu : (u, slot) ∈ b.pairs) (hw : (w, slot) ∈ a.pairs) : (g.dependencies a).Reaches w u :=
  ha.reaches_of_reference hw (hb.reference u slot hu)

theorem reaches_of_reaches (ha : g.IsPerfect slots a) (hb : g.IsPerfect slots b)
    (h : (g.dependencies b).Reaches u v) : (g.dependencies a).Reaches u v := by
  induction h with
  | refl => exact .refl
  | tail _ hedge ih =>
    obtain ⟨_, _, slot, hslot, hreference⟩ := (edge_dependencies hb.nodup).mp hedge
    obtain ⟨w, hw⟩ := ha.exists_owner hb hslot
    exact ih.trans ((ha.reaches_owner hb hslot hw).trans (ha.reaches_of_reference hw hreference))

theorem reaches_iff (ha : g.IsPerfect slots a) (hb : g.IsPerfect slots b) :
    (g.dependencies a).Reaches u v ↔ (g.dependencies b).Reaches u v :=
  ⟨hb.reaches_of_reaches ha, ha.reaches_of_reaches hb⟩

end IsPerfect

/-! ### One order -/

/-- Both assign the same equations, and these reach each other under the one as under the other. -/
structure SameReach (g : Incidence) (a b : Assignment) : Prop where
  ids : ∀ u, u ∈ a.ids ↔ u ∈ b.ids
  reaches : ∀ u v, (g.dependencies a).Reaches u v ↔ (g.dependencies b).Reaches u v

theorem SameReach.refl (g : Incidence) (a : Assignment) : g.SameReach a a :=
  ⟨fun _ => .rfl, fun _ _ => .rfl⟩

theorem SameReach.symm (h : g.SameReach a b) : g.SameReach b a :=
  ⟨fun u => (h.ids u).symm, fun u v => (h.reaches u v).symm⟩

theorem IsPerfect.sameReach (ha : g.IsPerfect slots a) (hb : g.IsPerfect slots b) :
    g.SameReach a b where
  ids _ := ha.mem_ids_iff.trans hb.mem_ids_iff.symm
  reaches _ _ := ha.reaches_iff hb

variable {order order' : List (List String)} {c d : List String}

namespace IsOrder

theorem exists_mem (h : g.IsOrder a order) (hu : u ∈ a.ids) : ∃ c ∈ order, u ∈ c :=
  List.mem_flatten.mp (h.perm.symm.subset hu)

theorem mem_ids (h : g.IsOrder a order) (hc : c ∈ order) (hu : u ∈ c) : u ∈ a.ids :=
  h.perm.subset (List.mem_flatten.mpr ⟨c, hc, hu⟩)

theorem nodup (h : g.IsOrder a order) (hc : c ∈ order) : c.Nodup :=
  (List.nodup_flatten.mp (h.perm.nodup_iff.mpr a.nodup_ids)).1 c hc

theorem class_unique (h : g.IsOrder a order) (hc : c ∈ order) (hd : d ∈ order) (hu : u ∈ c)
    (hud : u ∈ d) : c = d := by
  obtain ⟨i, hi, rfl⟩ := List.mem_iff_getElem.mp hc
  obtain ⟨j, hj, rfl⟩ := List.mem_iff_getElem.mp hd
  obtain rfl := number_unique (h.perm.nodup_iff.mpr a.nodup_ids) hi hj hu hud
  rfl

theorem mem_of_mem (hids : g.ids.Nodup) (hplaced : g.Placed) (ha : g.IsMatching slots a)
    (hab : g.SameReach a b) (h : g.IsOrder a order) (h' : g.IsOrder b order') (hc : c ∈ order) :
    c ∈ order' := by
  obtain ⟨u, hu⟩ := List.exists_mem_of_ne_nil c fun hnil => h.nonempty (hnil ▸ hc)
  obtain ⟨d, hd, hud⟩ := h'.exists_mem ((hab.ids u).mp (h.mem_ids hc hu))
  have hmem : ∀ v, v ∈ c ↔ v ∈ d := by
    intro v
    rw [h.connected c hc u hu, h'.connected d hd u hud, hab.reaches, hab.reaches]
  have hperm : c.Perm d := (List.perm_ext_iff_of_nodup (h.nodup hc) (h'.nodup hd)).mpr hmem
  have hcd : c = d := by
    refine hperm.eq_of_pairwise ?_ (h.sorted c hc) (h'.sorted d hd)
    intro v w hv hw hvw hwv
    refine placeIn_inj hids hplaced ?_ ?_ (Int.le_antisymm hvw hwv)
    · exact ha.mem_ids (h.mem_ids hc hv)
    · exact ha.mem_ids ((hab.ids w).mpr (h'.mem_ids hd hw))
  rwa [hcd]

theorem perm_of_sameReach (hids : g.ids.Nodup) (hplaced : g.Placed) (ha : g.IsMatching slots a)
    (hb : g.IsMatching slots b) (hab : g.SameReach a b) (h : g.IsOrder a order)
    (h' : g.IsOrder b order') : order.Perm order' := by
  rw [List.perm_ext_iff_of_nodup h.dispatched.nodup h'.dispatched.nodup]
  exact fun c => ⟨mem_of_mem hids hplaced ha hab h h', mem_of_mem hids hplaced hb hab.symm h' h⟩

/-- A matching has one order. -/
theorem eq_of_isOrder (hids : g.ids.Nodup) (hplaced : g.Placed) (ha : g.IsMatching slots a)
    (h : g.IsOrder a order) (h' : g.IsOrder a order') : order = order' :=
  h.dispatched.unique h'.dispatched
    (perm_of_sameReach hids hplaced ha ha (.refl g a) h h')

/-- A link of the one matching is a link of the other, from the owner of the slot. -/
theorem linked_of_linked (ha : g.IsPerfect slots a) (hb : g.IsPerfect slots b)
    (h : g.IsOrder a order) (hc : c ∈ order) (hd : d ∈ order) (hne : c ≠ d)
    (hlinked : (g.dependencies b).Linked c d) : (g.dependencies a).Linked c d := by
  obtain ⟨u, hu, v, hv, huv⟩ := hlinked
  obtain ⟨_, _, slot, hslot, hreference⟩ := (edge_dependencies hb.nodup).mp huv
  obtain ⟨w, hw⟩ := ha.exists_owner hb hslot
  have hwc : w ∈ c := (h.connected c hc u hu w).mpr
    ⟨ha.reaches_owner hb hslot hw, ha.owner_reaches hb hslot hw⟩
  refine ⟨w, hwc, v, hv, (edge_dependencies ha.nodup).mpr ⟨?_, ?_, slot, hw, hreference⟩⟩
  · rintro rfl
    exact hne (h.class_unique hc hd hwc hv)
  · exact h.mem_ids hd hv

theorem unique (hids : g.ids.Nodup) (hplaced : g.Placed) (ha : g.IsPerfect slots a)
    (hb : g.IsPerfect slots b) (h : g.IsOrder a order) (h' : g.IsOrder b order') :
    order = order' := by
  have hperm : order.Perm order' := perm_of_sameReach hids hplaced ha.toIsMatching hb.toIsMatching
    (ha.sameReach hb) h h'
  refine (h.dispatched.congr ?_ fun _ _ => rfl).unique h'.dispatched hperm
  intro c hc d hd hne
  constructor
  · exact linked_of_linked hb ha h' (hperm.subset hc) (hperm.subset hd) hne
  · exact linked_of_linked ha hb h hc hd hne

end IsOrder

/-! ### One decomposition -/

variable {parts parts' : List (List (Entry × Occurrence))} {bs cs : List Block}
  {part part' : List (Entry × Occurrence)}

theorem Decomposed.blocks_eq (hids : g.ids.Nodup) (hplaced : g.Placed) (ha : g.IsMatching slots a)
    (h : g.Decomposed a order parts bs) : g.blocks a = .ok bs := by
  obtain ⟨order', horder', h'⟩ := components_ok hids hplaced ha
  obtain rfl := IsOrder.eq_of_isOrder hids hplaced ha h.isOrder h'
  exact (blocks_eq_ok hids).mpr ⟨order, parts, horder', h.members, h.blocks⟩

/-- A slot that a class determines under the one matching, it determines under the other. -/
theorem IsOrder.slots_subset (ha : g.IsPerfect slots a) (hb : g.IsPerfect slots b)
    (h : g.IsOrder a order) (hc : c ∈ order) (hpart : List.Forall₂ (g.IsMember a) c part)
    (hpart' : List.Forall₂ (g.IsMember b) c part') (hslot : slot ∈ part.map (·.2)) :
    slot ∈ part'.map (·.2) := by
  obtain ⟨p, hp, rfl⟩ := List.mem_map.mp hslot
  obtain ⟨u, hu, hmember⟩ := Forall₂.exists_left hpart hp
  obtain ⟨w, hw⟩ := hb.exists_owner ha hmember.assigned
  have hwc : w ∈ c := (h.connected c hc u hu w).mpr
    ⟨(ha.reaches_iff hb).mpr (hb.reaches_owner ha hmember.assigned hw),
      (ha.reaches_iff hb).mpr (hb.owner_reaches ha hmember.assigned hw)⟩
  obtain ⟨q, hq, hmember'⟩ := Forall₂.exists_right hpart' hwc
  rw [Assignment.slot_unique hw hmember'.assigned]
  exact List.mem_map_of_mem hq

theorem nodup_slots_part (ha : a.slots.Nodup) (hc : c.Nodup)
    (hpart : List.Forall₂ (g.IsMember a) c part) : (part.map (·.2)).Nodup := by
  refine List.pairwise_map.mpr (Forall₂.pairwise hpart ?_ hc)
  intro u v p q hp hq huv hpq
  refine huv (Assignment.id_unique ha hp.assigned ?_)
  rw [hpq]
  exact hq.assigned

theorem entries_part (hids : g.ids.Nodup) (hpart : List.Forall₂ (g.IsMember a) c part)
    (hpart' : List.Forall₂ (g.IsMember b) c part') : part.map (·.1) = part'.map (·.1) := by
  refine Forall₂.map_eq ((Forall₂.comp hpart.flip hpart').imp ?_)
  rintro p q ⟨u, hp, hq⟩
  exact entry_unique hids hp.mem hq.mem (hp.id_eq.trans hq.id_eq.symm)

theorem IsPerfect.exists_member (hb : g.IsPerfect slots b) (hu : u ∈ g.ids) :
    ∃ p, g.IsMember b u p := by
  obtain ⟨slot, hslot⟩ := hb.exists_slot hu
  obtain ⟨e, he, hid⟩ := Incidence.mem_ids.mp hu
  exact ⟨(e, slot), he, hid, hslot⟩

theorem Decomposed.exists_parts (hids : g.ids.Nodup) (ha : g.IsPerfect slots a)
    (hb : g.IsPerfect slots b) (h : g.Decomposed a order parts bs) (h' : g.IsOrder b order) :
    ∃ parts', List.Forall₂ (List.Forall₂ (g.IsMember b)) order parts' ∧
      List.Forall₂ (fun part part' => part.map (·.1) = part'.map (·.1) ∧
        (part.map (·.2)).Perm (part'.map (·.2))) parts parts' := by
  have hmem : ∀ c ∈ order, ∃ part', c ∈ order ∧ List.Forall₂ (g.IsMember b) c part' := by
    intro c hc
    obtain ⟨part', hpart'⟩ := exists_forall₂ fun u hu =>
      hb.exists_member (ha.mem_ids (h.isOrder.mem_ids hc hu))
    exact ⟨part', hc, hpart'⟩
  obtain ⟨parts', hparts'⟩ := exists_forall₂ hmem
  refine ⟨parts', hparts'.imp fun _ _ hpart' => hpart'.2, ?_⟩
  apply (Forall₂.comp h.members.flip hparts').imp
  intro part part' hpart
  obtain ⟨c, hpart, hc, hpart'⟩ := hpart
  have hcn := h.isOrder.nodup hc
  have hn := nodup_slots_part ha.nodup hcn hpart
  have hn' := nodup_slots_part hb.nodup hcn hpart'
  refine ⟨entries_part hids hpart hpart', (List.perm_ext_iff_of_nodup hn hn').mpr ?_⟩
  intro slot
  exact ⟨h.isOrder.slots_subset ha hb hc hpart hpart', h'.slots_subset hb ha hc hpart' hpart⟩

/-- The blocks of one perfect matching can be had from any other. -/
theorem Decomposed.exists_blocks (hids : g.ids.Nodup) (hplaced : g.Placed)
    (ha : g.IsPerfect slots a) (hb : g.IsPerfect slots b) (h : g.Decomposed a order parts bs) :
    ∃ cs, g.blocks b = .ok cs ∧ List.Forall₂ Block.Agrees bs cs := by
  obtain ⟨order', horder', h'⟩ := components_ok hids hplaced hb.toIsMatching
  obtain rfl := IsOrder.unique hids hplaced ha hb h.isOrder h'
  obtain ⟨parts', hmembers, hparts⟩ := h.exists_parts hids ha hb h'
  have hblocks : List.Forall₂ (fun x part' => ∃ y, Block.Agrees x y ∧
      Block.ofMembers part' = .ok y) bs parts' := by
    apply (Forall₂.comp h.blocks.flip hparts).imp
    intro x part' hx
    obtain ⟨part, hx, hentries, hslots⟩ := hx
    exact Block.exists_agrees hentries hslots hx
  obtain ⟨cs, hagrees, hcs⟩ := Forall₂.exists_middle hblocks
  exact ⟨cs, (blocks_eq_ok hids).mpr ⟨order, parts', horder', hmembers, hcs.flip⟩, hagrees⟩

/-- Whichever perfect matching is found, the blocks hold the same equations in the same order and
the same slots. -/
theorem blocks_independent (g : Incidence) (hids : g.ids.Nodup)
    (hpositions : g.entries.map (·.position) = List.range g.entries.length)
    (slots : List Occurrence) (a b : Assignment) (ha : g.IsPerfect slots a)
    (hb : g.IsPerfect slots b) (bs cs : List Block) (hbs : g.blocks a = .ok bs)
    (hcs : g.blocks b = .ok cs) : List.Forall₂ Block.Agrees bs cs := by
  have hplaced : g.Placed := by
    rw [Placed, hpositions]
    exact List.nodup_range
  obtain ⟨order, parts, hd⟩ := exists_decomposed hids hplaced ha.toIsMatching hbs
  obtain ⟨cs', hcs', hagrees⟩ := hd.exists_blocks hids hplaced ha hb
  rw [hcs, Except.ok.injEq] at hcs'
  exact hcs' ▸ hagrees

end Incidence

/-- Two equations that both reference `x` and `y`. -/
def Incidence.crossed : Incidence where
  entries := [entry "sum" 0 (.binary .add (.var "x") (.var "y")) (.lit (.int 3)),
    entry "same" 1 (.var "x") (.var "y")]
where
  entry (id : String) (position : Nat) (lhs rhs : Expr) : Entry :=
    { id, position, origin := .continuous, source := .simple lhs rhs, exprs := [lhs, rhs],
      assigned := none, multiplicity := 1, references := [⟨"x", .value⟩, ⟨"y", .value⟩] }

def Assignment.straight : Assignment :=
  ⟨[("sum", ⟨"x", .value⟩), ("same", ⟨"y", .value⟩)], by decide⟩

def Assignment.swapped : Assignment :=
  ⟨[("sum", ⟨"y", .value⟩), ("same", ⟨"x", .value⟩)], by decide⟩

theorem crossed_blocks_independent : ∃ bs cs, Incidence.crossed.blocks .straight = .ok bs ∧
    Incidence.crossed.blocks .swapped = .ok cs ∧
    bs.map (·.slots) = [[⟨"x", .value⟩, ⟨"y", .value⟩]] ∧
    cs.map (·.slots) = [[⟨"y", .value⟩, ⟨"x", .value⟩]] ∧ List.Forall₂ Block.Agrees bs cs := by
  have hstraight : (Incidence.crossed.blocks .straight).map (fun bs => bs.map (·.slots)) =
      .ok [[⟨"x", .value⟩, ⟨"y", .value⟩]] := by cbv
  have hswapped : (Incidence.crossed.blocks .swapped).map (fun bs => bs.map (·.slots)) =
      .ok [[⟨"y", .value⟩, ⟨"x", .value⟩]] := by cbv
  have hperfect : ∀ a, a = Assignment.straight ∨ a = Assignment.swapped →
      Incidence.crossed.IsPerfect [⟨"x", .value⟩, ⟨"y", .value⟩] a := by
    rintro a (rfl | rfl)
    all_goals refine ⟨⟨?_, by decide, by decide⟩, ?_, by decide⟩
    all_goals simp [Incidence.crossed, Incidence.crossed.entry, Assignment.straight,
      Assignment.swapped, Assignment.ids, or_imp, forall_and]
  obtain ⟨bs, hbs, hstraight⟩ := map_eq_ok.mp hstraight
  obtain ⟨cs, hcs, hswapped⟩ := map_eq_ok.mp hswapped
  refine ⟨bs, cs, hbs, hcs, hstraight, hswapped, ?_⟩
  exact Incidence.crossed.blocks_independent (by decide) (by decide) _ _ _
    (hperfect _ (.inl rfl)) (hperfect _ (.inr rfl)) bs cs hbs hcs

end Causality
