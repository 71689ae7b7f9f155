import Causality.Proofs.Block.Dependencies
import Mathlib.Data.List.Pairwise

/-!
# Blocks of an order

Each class of the order becomes one block. Its equations keep their order, each beside the slot
that it is assigned, so the blocks hold the pairs of the assignment, each once.
-/

namespace Causality

namespace Block

def kindOf : List (Entry × Occurrence) → BlockKind
  | [(e, slot)] => if e.isSelfDependent slot then .loop else .scalar
  | _ => .loop

def solutionOf : List (Entry × Occurrence) → Except Fault (Option Expr)
  | [(e, slot)] => if e.isSelfDependent slot then .ok none else e.solution? slot
  | _ => .ok none

theorem ofMembers_eq_ok {members : List (Entry × Occurrence)} {b : Block} :
    ofMembers members = .ok b ↔ ∃ solution, solutionOf members = .ok solution ∧
      b = ⟨kindOf members, members.map (·.1), members.map (·.2), solution⟩ := by
  match members with
  | [] => simp [ofMembers, solutionOf, kindOf, eq_comm]
  | [(e, slot)] =>
    by_cases hself : e.isSelfDependent slot = true
    · simp [ofMembers, ofMember, solutionOf, kindOf, hself, pure, Except.pure, eq_comm]
    · simp only [ofMembers, ofMember, solutionOf, kindOf, hself, if_false, Bool.false_eq_true,
        bind_eq_ok, pure_eq_ok, List.map_cons, List.map_nil]
      exact exists_congr fun solution => and_congr_right fun _ => eq_comm
  | _ :: _ :: _ => simp [ofMembers, solutionOf, kindOf, eq_comm]

/-- Equations with the same slots become the same kind of block, with one solution. -/
theorem kindOf_solutionOf_congr {part part' : List (Entry × Occurrence)}
    (hentries : part.map (·.1) = part'.map (·.1))
    (hslots : (part.map (·.2)).Perm (part'.map (·.2))) :
    kindOf part = kindOf part' ∧ solutionOf part = solutionOf part' := by
  match part, part' with
  | [], [] => exact ⟨rfl, rfl⟩
  | [(e, slot)], [(f, slot')] =>
    obtain rfl : e = f := by simpa using hentries
    obtain rfl : slot = slot' := by simpa using hslots
    exact ⟨rfl, rfl⟩
  | _ :: _ :: _, _ :: _ :: _ => exact ⟨rfl, rfl⟩
  | [], _ :: _ => simp at hentries
  | _ :: _, [] => simp at hentries
  | [_], _ :: _ :: _ => simp at hentries
  | _ :: _ :: _, [_] => simp at hentries

/-- The two blocks hold the same equations in order and the same slots, which may be paired
differently. -/
structure Agrees (b c : Block) : Prop where
  kind : b.kind = c.kind
  entries : b.entries = c.entries
  ids : b.ids = c.ids
  slots : b.slots.Perm c.slots
  solution : b.solution = c.solution

theorem exists_agrees {part part' : List (Entry × Occurrence)} {b : Block}
    (hentries : part.map (·.1) = part'.map (·.1))
    (hslots : (part.map (·.2)).Perm (part'.map (·.2))) (h : ofMembers part = .ok b) :
    ∃ c, b.Agrees c ∧ ofMembers part' = .ok c := by
  obtain ⟨solution, hsolution, rfl⟩ := ofMembers_eq_ok.mp h
  obtain ⟨hkind, hsolve⟩ := kindOf_solutionOf_congr hentries hslots
  refine ⟨⟨kindOf part', part'.map (·.1), part'.map (·.2), solution⟩, ?_, ?_⟩
  · exact ⟨hkind, hentries, congrArg (List.map Entry.id) hentries, hslots, rfl⟩
  · rw [ofMembers_eq_ok]
    exact ⟨solution, hsolve ▸ hsolution, rfl⟩

/-- The two blocks hold the same equations and the same slots, in whichever order. -/
structure SameMembers (b c : Block) : Prop where
  kind : c.kind = b.kind
  entries : c.entries.Perm b.entries
  slots : c.slots.Perm b.slots
  solution : c.solution = b.solution

/-- A single member is not affected by the order, and several ones always form a loop. -/
theorem kindOf_solutionOf_perm {part part' : List (Entry × Occurrence)} (h : part'.Perm part) :
    kindOf part' = kindOf part ∧ solutionOf part' = solutionOf part := by
  match part, part' with
  | [], [] => exact ⟨rfl, rfl⟩
  | [p], [p'] =>
    obtain rfl : p' = p := by simpa using h
    exact ⟨rfl, rfl⟩
  | _ :: _ :: _, _ :: _ :: _ => exact ⟨rfl, rfl⟩
  | [], _ :: _ => simpa using h.length_eq
  | _ :: _, [] => simpa using h.length_eq
  | [_], _ :: _ :: _ => simpa using h.length_eq
  | _ :: _ :: _, [_] => simpa using h.length_eq

theorem sameMembers_of_perm {part part' : List (Entry × Occurrence)} {b b' : Block}
    (h : part'.Perm part) (hb : ofMembers part = .ok b) (hb' : ofMembers part' = .ok b') :
    b.SameMembers b' := by
  obtain ⟨solution, hsolution, rfl⟩ := ofMembers_eq_ok.mp hb
  obtain ⟨solution', hsolution', rfl⟩ := ofMembers_eq_ok.mp hb'
  obtain ⟨hkind, hsolve⟩ := kindOf_solutionOf_perm h
  rw [hsolve, hsolution, Except.ok.injEq] at hsolution'
  exact ⟨hkind, h.map _, h.map _, hsolution'.symm⟩

end Block

namespace Incidence

variable {g : Incidence} {a : Assignment} {slots : List Occurrence} {bs : List Block}
  {order : List (List String)} {parts : List (List (Entry × Occurrence))} {id : String}

structure IsMember (g : Incidence) (a : Assignment) (id : String) (p : Entry × Occurrence) :
    Prop where
  mem : p.1 ∈ g.entries
  id_eq : p.1.id = id
  assigned : (id, p.2) ∈ a.pairs

theorem IsMember.unique (hids : g.ids.Nodup) {p p' : Entry × Occurrence}
    (h : g.IsMember a id p) (h' : g.IsMember a id p') : p = p' :=
  Prod.ext (entry_unique hids h.mem h'.mem (h.id_eq.trans h'.id_eq.symm))
    (Assignment.slot_unique h.assigned h'.assigned)

theorem isMember_of_member {p : Entry × Occurrence} (h : g.member a id = .ok p) :
    g.IsMember a id p := by
  unfold member at h
  split at h
  · next e slot he hslot =>
    obtain rfl := Except.ok.inj h
    obtain ⟨hmem, hid⟩ := mem_of_latest? he
    exact ⟨hmem, hid, Assignment.slotOf?_iff.mp hslot⟩
  · cases h

theorem member_eq_ok (hids : g.ids.Nodup) {p : Entry × Occurrence} :
    g.member a id = .ok p ↔ g.IsMember a id p := by
  refine ⟨isMember_of_member, fun h => ?_⟩
  rw [member, (latest?_eq_some hids).mpr ⟨h.mem, h.id_eq⟩, Assignment.slotOf?_iff.mpr h.assigned]

/-- Each block consists of members. That an id is listed once is not needed for this. -/
theorem members_of_blocks (h : g.blocks a = .ok bs) : ∃ order parts, g.components a = .ok order ∧
    List.Forall₂ (List.Forall₂ (g.IsMember a)) order parts ∧
    List.Forall₂ (fun part b => Block.ofMembers part = .ok b) parts bs := by
  obtain ⟨order, horder, hall⟩ := bind_eq_ok.mp h
  have hblocks : List.Forall₂ (fun ids b => ∃ part, List.Forall₂ (g.IsMember a) ids part ∧
      Block.ofMembers part = .ok b) order bs := by
    refine (mapM_eq_ok.mp hall).imp fun ids b hb => ?_
    obtain ⟨part, hpart, hb⟩ := bind_eq_ok.mp hb
    exact ⟨part, (mapM_eq_ok.mp hpart).imp fun _ _ => isMember_of_member, hb⟩
  obtain ⟨parts, hmembers, hparts⟩ := Forall₂.exists_middle hblocks
  exact ⟨order, parts, horder, hmembers, hparts⟩

theorem blocks_eq_ok (hids : g.ids.Nodup) : g.blocks a = .ok bs ↔
    ∃ order parts, g.components a = .ok order ∧
      List.Forall₂ (List.Forall₂ (g.IsMember a)) order parts ∧
      List.Forall₂ (fun part b => Block.ofMembers part = .ok b) parts bs := by
  refine ⟨members_of_blocks, fun ⟨order, parts, horder, hmembers, hblocks⟩ => ?_⟩
  rw [blocks, bind_eq_ok]
  refine ⟨order, horder, mapM_eq_ok.mpr ((Forall₂.comp hmembers hblocks).imp ?_)⟩
  rintro ids b ⟨part, hpart, hb⟩
  rw [bind_eq_ok]
  exact ⟨part, mapM_eq_ok.mpr (hpart.imp fun _ _ => (member_eq_ok hids).mpr), hb⟩

/-- The blocks with the members that they are made of. -/
structure Decomposed (g : Incidence) (a : Assignment) (order : List (List String))
    (parts : List (List (Entry × Occurrence))) (bs : List Block) : Prop where
  isOrder : g.IsOrder a order
  members : List.Forall₂ (List.Forall₂ (g.IsMember a)) order parts
  blocks : List.Forall₂ (fun part b => Block.ofMembers part = .ok b) parts bs

theorem exists_decomposed (hids : g.ids.Nodup) (hplaced : g.Placed) (ha : g.IsMatching slots a)
    (h : g.blocks a = .ok bs) : ∃ order parts, g.Decomposed a order parts bs := by
  obtain ⟨order, parts, horder, hmembers, hblocks⟩ := (blocks_eq_ok hids).mp h
  obtain ⟨order', horder', hisOrder⟩ := components_ok hids hplaced ha
  rw [horder, Except.ok.injEq] at horder'
  exact ⟨order, parts, horder' ▸ hisOrder, hmembers, hblocks⟩

namespace Decomposed

theorem entries_eq (h : g.Decomposed a order parts bs) :
    bs.map (·.entries) = parts.map fun part => part.map (·.1) := by
  refine (Forall₂.map_eq (h.blocks.imp ?_)).symm
  intro part b hb
  obtain ⟨_, _, rfl⟩ := Block.ofMembers_eq_ok.mp hb
  rfl

theorem slots_eq (h : g.Decomposed a order parts bs) :
    bs.map (·.slots) = parts.map fun part => part.map (·.2) := by
  refine (Forall₂.map_eq (h.blocks.imp ?_)).symm
  intro part b hb
  obtain ⟨_, _, rfl⟩ := Block.ofMembers_eq_ok.mp hb
  rfl

theorem order_eq (h : g.Decomposed a order parts bs) :
    order = parts.map fun part => part.map (·.1.id) := by
  rw [← List.map_id order]
  refine Forall₂.map_eq (h.members.imp fun ids part hpart => ?_)
  rw [id_eq, ← List.map_id ids]
  exact Forall₂.map_eq (hpart.imp fun id p hp => hp.id_eq.symm)

theorem ids_eq (h : g.Decomposed a order parts bs) : bs.map (·.ids) = order := by
  have hids : bs.map (·.ids) = (bs.map (·.entries)).map fun es => es.map (·.id) := by
    simp [Block.ids, Function.comp_def]
  rw [hids, h.entries_eq, h.order_eq]
  simp [Function.comp_def]

theorem mem_entries (h : g.Decomposed a order parts bs) {e : Entry}
    (he : e ∈ bs.flatMap (·.entries)) : e ∈ g.entries := by
  rw [List.flatMap, h.entries_eq, ← List.map_flatten, List.mem_map] at he
  obtain ⟨p, hp, rfl⟩ := he
  obtain ⟨part, hpart, hp⟩ := List.mem_flatten.mp hp
  obtain ⟨ids, _, hids⟩ := Forall₂.exists_left h.members hpart
  obtain ⟨id, _, hmember⟩ := Forall₂.exists_left hids hp
  exact hmember.mem

theorem ids_entries (h : g.Decomposed a order parts bs) :
    (bs.flatMap (·.entries)).map (·.id) = order.flatten := by
  rw [← h.ids_eq, List.map_flatMap]
  rfl

def pairs (parts : List (List (Entry × Occurrence))) : List (String × Occurrence) :=
  parts.flatten.map fun p => (p.1.id, p.2)

theorem mem_pairs (h : g.Decomposed a order parts bs) {p : String × Occurrence}
    (hp : p ∈ pairs parts) : p ∈ a.pairs := by
  obtain ⟨q, hq, rfl⟩ := List.mem_map.mp hp
  obtain ⟨part, hpart, hq⟩ := List.mem_flatten.mp hq
  obtain ⟨ids, _, hids⟩ := Forall₂.exists_left h.members hpart
  obtain ⟨id, _, hmember⟩ := Forall₂.exists_left hids hq
  have hassigned := hmember.assigned
  rwa [← hmember.id_eq] at hassigned

theorem ids_pairs (h : g.Decomposed a order parts bs) :
    (pairs parts).map (·.1) = bs.flatMap (·.ids) := by
  rw [List.flatMap, h.ids_eq, h.order_eq, pairs, List.map_map, List.map_flatten]
  rfl

theorem slots_pairs (h : g.Decomposed a order parts bs) :
    (pairs parts).map (·.2) = bs.flatMap (·.slots) := by
  rw [List.flatMap, h.slots_eq, pairs, List.map_map, List.map_flatten]
  rfl

theorem perm_ids (h : g.Decomposed a order parts bs) : (bs.flatMap (·.ids)).Perm a.ids := by
  rw [List.flatMap, h.ids_eq]
  exact h.isOrder.perm

theorem perm_pairs (h : g.Decomposed a order parts bs) : (pairs parts).Perm a.pairs := by
  have hids := h.perm_ids
  rw [← h.ids_pairs] at hids
  have hnodup := List.Nodup.of_map _ (hids.nodup_iff.mpr a.nodup_ids)
  refine (hnodup.subperm fun p hp => h.mem_pairs hp).perm_of_length_le ?_
  have hlength := hids.length_eq
  rw [List.length_map, Assignment.ids, List.length_map] at hlength
  exact hlength.ge

theorem perm_slots (h : g.Decomposed a order parts bs) :
    (bs.flatMap (·.slots)).Perm a.slots := by
  rw [← h.slots_pairs]
  exact h.perm_pairs.map (·.2)

theorem exists_id (h : g.Decomposed a order parts bs) {b : Block} (hb : b ∈ bs)
    {slot : Occurrence} (hslot : slot ∈ b.slots) : ∃ id ∈ b.ids, (id, slot) ∈ a.pairs := by
  obtain ⟨part, hpart, hofMembers⟩ := Forall₂.exists_left h.blocks hb
  obtain ⟨_, _, rfl⟩ := Block.ofMembers_eq_ok.mp hofMembers
  obtain ⟨q, hq, rfl⟩ := List.mem_map.mp hslot
  refine ⟨q.1.id, List.mem_map_of_mem (List.mem_map_of_mem hq), ?_⟩
  refine h.mem_pairs (p := (q.1.id, q.2)) ?_
  exact List.mem_map.mpr ⟨q, List.mem_flatten.mpr ⟨part, hpart, hq⟩, rfl⟩

theorem disjoint_ids (h : g.Decomposed a order parts bs) :
    bs.Pairwise fun b c => ∀ id ∈ b.ids, id ∉ c.ids := by
  have hnodup := h.perm_ids.nodup_iff.mpr a.nodup_ids
  exact (List.nodup_flatMap.mp hnodup).2.imp fun hdisjoint id hb hc => hdisjoint hb hc

theorem exists_mem_ids (h : g.Decomposed a order parts bs) {b : Block} (hb : b ∈ bs) :
    ∃ id, id ∈ b.ids := by
  apply List.exists_mem_of_ne_nil
  intro hnil
  apply h.isOrder.nonempty
  rw [← h.ids_eq, ← hnil]
  exact List.mem_map_of_mem hb

theorem nodup (h : g.Decomposed a order parts bs) : bs.Nodup := by
  apply h.disjoint_ids.imp_of_mem
  rintro b c hb _ hdisjoint rfl
  obtain ⟨id, hid⟩ := h.exists_mem_ids hb
  exact hdisjoint id hid hid

theorem block_unique (h : g.Decomposed a order parts bs) {b c : Block} (hb : b ∈ bs) (hc : c ∈ bs)
    (hidb : id ∈ b.ids) (hidc : id ∈ c.ids) : b = c := by
  have : Std.Symm fun b c : Block => ∀ id ∈ b.ids, id ∉ c.ids :=
    ⟨fun b c hbc id hidc hidb => hbc id hidb hidc⟩
  by_contra hne
  exact h.disjoint_ids.forall hb hc hne id hidb hidc

theorem not_feeds (h : g.Decomposed a order parts bs) (hn : a.slots.Nodup) :
    bs.Pairwise fun b c => ∀ u ∈ c.ids, ∀ v ∈ b.ids, ¬ g.Feeds a u v := by
  have hforward := h.isOrder.dispatched.forward
  rw [← h.ids_eq, List.pairwise_map] at hforward
  refine (hforward.and h.disjoint_ids).imp ?_
  rintro b c ⟨hlinked, hdisjoint⟩ u hu v hv hfeeds
  have heq := hlinked ⟨u, hu, v, hv, (edge_dependencies hn).mpr hfeeds⟩
  exact hdisjoint v hv (heq ▸ hv)

end Decomposed

end Incidence

end Causality
