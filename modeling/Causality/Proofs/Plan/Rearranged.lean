import Causality.Proofs.Incidence.Rearranged
import Causality.Proofs.Plan.Verdict
import Mathlib.Data.Multiset.ZeroCons

/-!
# Plans of a model in another order

The order of the declarations decides which slots are tried first and in which order the blocks are
listed. It decides neither how many equations are matched nor, where all of them are, which blocks
there are.
-/

namespace Causality

section Lists

variable {α β : Type} {R : α → β → Prop} {xs : List α} {ys zs : List β}

theorem rel_of_forall₂ (h : List.Forall₂ R xs ys) : Multiset.Rel R xs ys := by
  induction h with
  | nil => exact .zero
  | cons hxy _ ih => exact .cons hxy ih

theorem rel_of_perm (h : List.Forall₂ R xs zs) (hperm : zs.Perm ys) : Multiset.Rel R xs ys := by
  rw [← Multiset.coe_eq_coe.mpr hperm]
  exact rel_of_forall₂ h

end Lists

variable {m m' : Model} {π : Section → Equiv.Perm Nat} {includeInitial : Bool} {g g' : Incidence}
  {f : String → String} {q : String → Nat} {p p' : Plan} {b c b' : Block}

structure Block.Moved (π : Section → Equiv.Perm Nat) (b b' : Block) : Prop where
  kind : b'.kind = b.kind
  entries : Multiset.Rel (Entry.Moved π) b.entries b'.entries
  slots : b'.slots.Perm b.slots
  solution : b'.solution = b.solution

/-- Two entries that are moved to the same place come from the same place. -/
theorem Entry.Moved.id_unique {e₁ e₂ e' : Entry} (h₁ : e₁.Moved π e') (h₂ : e₂.Moved π e') :
    e₁.id = e₂.id := by
  obtain ⟨i, x, hid₁, hplace₁⟩ := h₁.id
  obtain ⟨j, y, hid₂, hplace₂⟩ := h₂.id
  obtain ⟨horigin, hij, rfl⟩ := Section.place_injective (hplace₁.symm.trans hplace₂)
  rw [horigin] at hij hid₁
  rw [hid₁, hid₂, (π e₂.origin).injective hij]

theorem Incidence.Decomposed.moved_injective {a : Assignment} {order : List (List String)}
    {parts : List (List (Entry × Occurrence))} {bs : List Block}
    (hd : g.Decomposed a order parts bs) (hb : b ∈ bs) (hc : c ∈ bs) (hbb' : b.Moved π b')
    (hcb' : c.Moved π b') : b = c := by
  obtain ⟨id, hid⟩ := hd.exists_mem_ids hb
  obtain ⟨e, he, rfl⟩ := List.mem_map.mp hid
  obtain ⟨e', he', hee'⟩ := Multiset.exists_mem_of_rel_of_mem hbb'.entries he
  obtain ⟨e₂, he₂, he₂e'⟩ :=
    Multiset.exists_mem_of_rel_of_mem (Multiset.rel_flip.mpr hcb'.entries) he'
  have hidc : e.id ∈ c.ids := by
    rw [hee'.id_unique he₂e']
    exact List.mem_map_of_mem he₂
  exact hd.block_unique hb hc hid hidc

theorem Block.SameMembers.of_agrees (h : b.SameMembers c) (hagree : b'.Agrees c) :
    b.SameMembers b' where
  kind := hagree.kind.trans h.kind
  entries := by
    rw [hagree.entries]
    exact h.entries
  slots := hagree.slots.trans h.slots
  solution := hagree.solution.trans h.solution

theorem Block.SameMembers.moved (h : (b.rename f q).SameMembers b')
    (hmoved : ∀ e ∈ b.entries, e.Moved π (e.rename f q)) : b.Moved π b' where
  kind := h.kind
  entries := by
    apply rel_of_perm _ h.entries.symm
    rw [Block.rename, List.forall₂_map_right_iff, List.forall₂_same]
    exact hmoved
  slots := h.slots
  solution := h.solution

theorem Model.slots_perm (hvars : m'.vars.Perm m.vars) (hr : g.Renames g' f q) :
    (m'.slots g').Perm (m.slots g) := by
  unfold Model.slots
  rw [List.flatMap_congr fun v _ => hr.slots_eq v]
  exact hvars.flatMap_right _

namespace Draft.Reorders

section Matchings

variable (h : m.toDraft.Reorders m'.toDraft π) (hg : m.incidence includeInitial = .ok g)
  (hg' : m'.incidence includeInitial = .ok g')

include h hg hg'

theorem size_le : (m.matching g none).assignment.size ≤ (m'.matching g' none).assignment.size := by
  obtain ⟨f, hrenames, _⟩ := h.exists_renames hg hg'
  have hmatching := (m.matching_admits hg none).isMatching
  have hn := hrenames.nodup_assigned hmatching
  have hrenamed : g'.IsMatching (m.slots g) ((m.matching g none).assignment.rename f hn) :=
    hrenames.isMatching hmatching
  have hle := m'.size_le_matching hg' (hrenamed.of_perm (Model.slots_perm h.vars hrenames).symm)
  rwa [Assignment.size, Assignment.rename, List.length_map] at hle

theorem size_eq : (m'.matching g' none).assignment.size = (m.matching g none).assignment.size :=
  Nat.le_antisymm (h.symm.size_le hg' hg) (h.size_le hg hg')

theorem entries_rel : Multiset.Rel (Entry.Moved π) g.entries g'.entries := by
  obtain ⟨f, hrenames, hmoved⟩ := h.exists_renames hg hg'
  apply rel_of_perm _ hrenames.perm.symm
  rw [List.forall₂_map_right_iff, List.forall₂_same]
  exact hmoved

end Matchings

section Plans

variable (h : m.toDraft.Reorders m'.toDraft π) (hp : m.analyze ⟨includeInitial, none⟩ = .ok p)
  (hp' : m'.analyze ⟨includeInitial, none⟩ = .ok p')

include h hp hp'

theorem isTotal (htotal : p.matching.isTotal = true) : p'.matching.isTotal = true := by
  have hg := (Model.analyze_eq_ok.mp hp).incidence
  obtain ⟨_, _, hg', hx', _⟩ := Model.analyze_eq_ok.mp hp'
  obtain ⟨f, hrenames, _⟩ := h.exists_renames hg hg'
  have hperfect := m.isPerfect_of_isTotal hp htotal
  have hn := hrenames.nodup_assigned hperfect.toIsMatching
  have hrenamed : p'.incidence.IsPerfect (m'.slots p'.incidence)
      (p.matching.assignment.rename f hn) :=
    (hrenames.isPerfect hperfect).of_perm (Model.slots_perm h.vars hrenames).symm
  rw [hx']
  exact m'.isTotal_matching hg' hrenamed

theorem isWellPosed_eq : p'.isWellPosed = p.isWellPosed := by
  rw [Bool.eq_iff_iff, m'.isWellPosed_iff_isTotal hp', m.isWellPosed_iff_isTotal hp]
  exact ⟨h.symm.isTotal hp' hp, h.isTotal hp hp'⟩

/-- Each block is found again, whichever equations the other search has given which slots. -/
theorem exists_block (htotal : p.matching.isTotal = true) (hb : b ∈ p.blocks) :
    ∃ b' ∈ p'.blocks, b.Moved π b' := by
  have hg := (Model.analyze_eq_ok.mp hp).incidence
  have hg' := (Model.analyze_eq_ok.mp hp').incidence
  obtain ⟨f, hrenames, hmoved⟩ := h.exists_renames hg hg'
  have hids' := m'.nodup_ids hg'
  have hplaced' := m'.placed hg'
  have hperfect := m.isPerfect_of_isTotal hp htotal
  have hperfect' := m'.isPerfect_of_isTotal hp' (h.isTotal hp hp' htotal)
  have hn := hrenames.nodup_assigned hperfect.toIsMatching
  have hrenamed : p'.incidence.IsPerfect (m'.slots p'.incidence)
      (p.matching.assignment.rename f hn) :=
    (hrenames.isPerfect hperfect).of_perm (Model.slots_perm h.vars hrenames).symm
  obtain ⟨order, parts, hd⟩ := m.exists_decomposed hp
  obtain ⟨_, _, hd'⟩ := m'.exists_decomposed hp'
  -- the blocks of the renamed matching stand between those of the two plans
  obtain ⟨cs, hcs, hagrees⟩ := hd'.exists_blocks hids' hplaced' hperfect' hrenamed
  obtain ⟨_, _, hcsd⟩ := Incidence.exists_decomposed hids' hplaced' hrenamed.toIsMatching hcs
  obtain ⟨c, hc, hsame⟩ :=
    hrenames.exists_block (m.nodup_ids hg) hperfect.toIsMatching hd hcsd hb
  obtain ⟨b', hb', hagree⟩ := Forall₂.exists_left hagrees hc
  refine ⟨b', hb', (hsame.of_agrees hagree).moved ?_⟩
  intro e he
  exact hmoved e (hd.mem_entries (List.mem_flatMap.mpr ⟨b, hb, he⟩))

theorem exists_blocks (htotal : p.matching.isTotal = true) :
    ∃ bs, List.Forall₂ (Block.Moved π) p.blocks bs ∧ bs.Subperm p'.blocks := by
  obtain ⟨order, parts, hd⟩ := m.exists_decomposed hp
  apply exists_subperm hd.nodup
  · exact fun b hb => h.exists_block hp hp' htotal hb
  · exact fun b hb c hc b' hbb' hcb' => hd.moved_injective hb hc hbb' hcb'

theorem length_blocks_le (htotal : p.matching.isTotal = true) :
    p.blocks.length ≤ p'.blocks.length := by
  obtain ⟨bs, hbs, hsubperm⟩ := h.exists_blocks hp hp' htotal
  rw [hbs.length_eq]
  exact hsubperm.length_le

theorem blocks_rel (htotal : p.matching.isTotal = true) :
    Multiset.Rel (Block.Moved π) p.blocks p'.blocks := by
  obtain ⟨bs, hbs, hsubperm⟩ := h.exists_blocks hp hp' htotal
  apply rel_of_perm hbs
  apply hsubperm.perm_of_length_le
  rw [← hbs.length_eq]
  exact h.symm.length_blocks_le hp' hp (h.isTotal hp hp' htotal)

end Plans

end Draft.Reorders

/-- The variables, and the equations of each section, can be declared in any order. The entries are
the same under the ids of their new places. As many of them are matched, and the verdict is the
same. If the model is well posed, the blocks are the same, too: each has its kind, its entries, its
slots and its solution. -/
theorem Model.analysis_ignores_order (m m' : Model) (includeInitial : Bool)
    (π : Section → Equiv.Perm Nat) (h : m.toDraft.Reorders m'.toDraft π) (p p' : Plan)
    (hp : m.analyze ⟨includeInitial, none⟩ = .ok p)
    (hp' : m'.analyze ⟨includeInitial, none⟩ = .ok p') :
    p'.matching.assignment.size = p.matching.assignment.size ∧
      p'.isWellPosed = p.isWellPosed ∧
      Multiset.Rel (Entry.Moved π) p.incidence.entries p'.incidence.entries ∧
      (p.isWellPosed = true → Multiset.Rel (Block.Moved π) p.blocks p'.blocks) := by
  obtain ⟨_, _, hg, hx, _⟩ := Model.analyze_eq_ok.mp hp
  obtain ⟨_, _, hg', hx', _⟩ := Model.analyze_eq_ok.mp hp'
  refine ⟨?_, h.isWellPosed_eq hp hp', h.entries_rel hg hg', ?_⟩
  · rw [hx, hx']
    exact h.size_eq hg hg'
  · intro hposed
    exact h.blocks_rel hp hp' ((m.isWellPosed_iff_isTotal hp).mp hposed)

/-- The model `coupled` with its variables and its equations from last to first. -/
def Draft.coupledReversed : Draft :=
  { Draft.coupled with
    vars := Draft.coupled.vars.reverse
    equations := fun s => (Draft.coupled.equations s).reverse }

theorem Draft.elaborate_coupledReversed :
    Draft.coupledReversed.elaborate = .ok Draft.coupledReversed.asDeclared := by
  apply Draft.elaborate_of_sections
  · cbv
  · cbv
  · intro s
    cases s <;> cbv
  · intro s
    cases s <;> cbv

def Model.coupledReversed : Model where
  toDraft := .coupledReversed
  expanded := Draft.coupledReversed.asDeclared
  accepted := Draft.elaborate_coupledReversed

/-- The first equation and the third one of the continuous section change places. -/
def Draft.reversal : Section → Equiv.Perm Nat
  | .continuous => Equiv.swap 0 2
  | _ => .refl _

theorem Draft.coupled_reorders : Draft.coupled.Reorders Draft.coupledReversed Draft.reversal where
  vars := List.reverse_perm _
  equations s i := by
    cases s with
    | continuous =>
      match i with
      | 0 => rfl
      | 1 => rfl
      | 2 => rfl
      | i + 3 =>
        rw [Draft.reversal, Equiv.swap_apply_of_ne_of_ne (by omega) (by omega)]
        rfl
    | _ => rfl

/-- The loop of the last two equations comes first by its equations now, and last by its slots. -/
theorem coupled_analysis_ignores_order : ∃ p p', Model.coupled.analyze .standard = .ok p ∧
    Model.coupledReversed.analyze .standard = .ok p' ∧ p'.matching.assignment.size = 3 ∧
    p'.isWellPosed = true ∧ Multiset.Rel (Block.Moved Draft.reversal) p.blocks p'.blocks ∧
    p.blocks.map (·.ids) = [["eq[1]", "eq[2]"], ["eq[0]"]] ∧
    p'.blocks.map (·.ids) = [["eq[0]", "eq[1]"], ["eq[2]"]] := by
  have hfacts : (Model.coupled.analyze .standard).map (fun p =>
      (p.matching.assignment.size, p.isWellPosed, p.blocks.map (·.ids))) =
      .ok (3, true, [["eq[1]", "eq[2]"], ["eq[0]"]]) := by cbv
  have hfacts' : (Model.coupledReversed.analyze .standard).map (fun p => p.blocks.map (·.ids)) =
      .ok [["eq[0]", "eq[1]"], ["eq[2]"]] := by cbv
  obtain ⟨p, hp, hfacts⟩ := map_eq_ok.mp hfacts
  obtain ⟨p', hp', hblocks'⟩ := map_eq_ok.mp hfacts'
  rw [Prod.mk.injEq, Prod.mk.injEq] at hfacts
  obtain ⟨hsize, hposed, hblocks⟩ := hfacts
  obtain ⟨hsizes, hverdict, _, hrel⟩ := Model.analysis_ignores_order .coupled .coupledReversed true
    Draft.reversal Draft.coupled_reorders p p' hp hp'
  exact ⟨p, p', hp, hp', hsizes.trans hsize, hverdict.trans hposed, hrel hposed, hblocks, hblocks'⟩

end Causality
