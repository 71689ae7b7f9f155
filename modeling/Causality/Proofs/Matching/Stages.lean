import Causality.Proofs.Matching.Models

/-!
# Stages of a search

A run goes from the greedy start through one pairing after each search. Whatever the budget, every
stage is consistent and keeps what was paired before. A run that is cut off leaves the equation of
its last search unpaired.
-/

namespace Causality

namespace Bipartite

variable {n m : Nat} {g : Bipartite n m} {p : Pairing n m} {budget : Option Int} {i : Fin n}
  {l : List (Fin n)}

theorem improve_cons_of_paired (hi : (p.slotOf i).isSome) :
    g.improve (i :: l) budget p = g.improve l budget p := by
  rw [improve, if_pos hi]

theorem improve_cons_unbounded (hi : ¬ (p.slotOf i).isSome) :
    g.improve (i :: l) none p = g.improve l none (g.augment p none i).pairing := by
  rw [improve, if_neg hi]

theorem improve_cons_bounded (hi : ¬ (p.slotOf i).isSome) (b : Int) :
    g.improve (i :: l) (some b) p =
      if b - (g.augment p (some b) i).steps < 0 then ((g.augment p (some b) i).pairing, true)
      else g.improve l (some (b - (g.augment p (some b) i).steps))
        (g.augment p (some b) i).pairing := by
  rw [improve, if_neg hi]

/-- Below zero, the first equation that needs a search overdraws the budget. -/
theorem improve_snd_of_negative {b c : Int} (hb : b < 0) (hc : c < 0) :
    (g.improve l (some b) p).2 = (g.improve l (some c) p).2 := by
  induction l with
  | nil => rfl
  | cons i l ih =>
    by_cases hi : (p.slotOf i).isSome
    · rw [improve_cons_of_paired hi, improve_cons_of_paired hi, ih]
    · rw [improve_cons_bounded hi, improve_cons_bounded hi, if_pos (by omega), if_pos (by omega)]

/-- The pairing after the greedy start and the searches from these equations, and whether the budget
was overdrawn. -/
def stage (g : Bipartite n m) (budget : Option Int) (l : List (Fin n)) : Pairing n m × Bool :=
  g.improve l budget (g.greedy g.order)

theorem stage_order (g : Bipartite n m) (budget : Option Int) :
    g.stage budget g.order = g.pair budget := rfl

theorem consistent_stage (g : Bipartite n m) (budget : Option Int) (l : List (Fin n)) :
    (g.stage budget l).1.Consistent g :=
  (improve_extends l budget g.consistent_greedy).consistent

/-- A run over two lists goes on with what the first one left of the budget, or ends there. -/
theorem improve_append (g : Bipartite n m) (l l' : List (Fin n)) (budget : Option Int)
    (p : Pairing n m) : ∃ left, g.improve (l ++ l') budget p =
      if (g.improve l budget p).2 then g.improve l budget p
      else g.improve l' left (g.improve l budget p).1 := by
  induction l generalizing budget p with
  | nil => exact ⟨budget, rfl⟩
  | cons i l ih =>
    rw [List.cons_append]
    by_cases hi : (p.slotOf i).isSome
    · rw [improve_cons_of_paired hi, improve_cons_of_paired hi]
      exact ih budget p
    · cases budget with
      | none =>
        rw [improve_cons_unbounded hi, improve_cons_unbounded hi]
        exact ih none _
      | some b =>
        rw [improve_cons_bounded hi, improve_cons_bounded hi]
        by_cases hover : b - (g.augment p (some b) i).steps < 0
        · rw [if_pos hover, if_pos hover]
          exact ⟨none, (if_pos rfl).symm⟩
        · rw [if_neg hover, if_neg hover]
          exact ih _ _

theorem stage_append_extends (g : Bipartite n m) (budget : Option Int) (l l' : List (Fin n)) :
    (g.stage budget l).1.Extends g (g.stage budget (l ++ l')).1 := by
  obtain ⟨left, happend⟩ := g.improve_append l l' budget (g.greedy g.order)
  have hstage : g.stage budget (l ++ l') =
      if (g.stage budget l).2 then g.stage budget l
      else g.improve l' left (g.stage budget l).1 := happend
  rw [hstage]
  split_ifs
  · exact .refl (g.consistent_stage budget l)
  · exact improve_extends l' left (g.consistent_stage budget l)

theorem pairing_of_overdrawn {b : Int} (h : b - (g.augment p (some b) i).steps < 0) :
    (g.augment p (some b) i).pairing = p := by
  cases g.augment_outcome p (some b) i with
  | flip target es js _ hsteps _ =>
    have hle : ¬ b < ((g.augment p (some b) i).steps : Int) := by simpa [exceeds] using hsteps
    omega
  | closed _ heq _ => exact heq
  | overdrawn _ heq _ => exact heq

/-- Only the last search of a run is cut off. -/
theorem exists_unpaired_of_aborted (h : (g.improve l budget p).2 = true) :
    ∃ i, (g.improve l budget p).1.slotOf i = none := by
  induction l generalizing budget p with
  | nil => cases h
  | cons i l ih =>
    by_cases hi : (p.slotOf i).isSome
    · rw [improve_cons_of_paired hi] at h ⊢
      exact ih h
    · cases budget with
      | none =>
        rw [improve_cons_unbounded hi] at h ⊢
        exact ih h
      | some b =>
        rw [improve_cons_bounded hi] at h ⊢
        by_cases hover : b - (g.augment p (some b) i).steps < 0
        · rw [if_pos hover, pairing_of_overdrawn hover]
          exact ⟨i, by simpa using hi⟩
        · rw [if_neg hover] at h ⊢
          exact ih h

end Bipartite

namespace Incidence

variable {m : Nat} {g : Incidence} {slots : Vector Occurrence m}
  {p q : Pairing g.entries.length m} {aborted aborted' : Bool}

theorem id_mem_matchingOf (hids : g.ids.Nodup) {i : Fin g.entries.length} :
    (g.entries.get i).id ∈ (g.matchingOf slots p aborted).assignment.ids ↔
      (p.slotOf i).isSome := by
  rw [mem_ids_matchingOf]
  constructor
  · rintro ⟨k, hk, hid⟩
    rwa [node_eq hids, index_unique hids hid] at hk
  · intro hi
    exact ⟨i, by rwa [node_eq hids], rfl⟩

theorem mem_slots_matchingOf (hids : g.ids.Nodup) (hslots : slots.toList.Nodup)
    (hp : p.Consistent (g.bipartite slots)) {j : Fin m} :
    slots.get j ∈ (g.matchingOf slots p aborted).assignment.slots ↔ (p.equationOf j).isSome := by
  rw [Assignment.slots, pairs_matchingOf hids, mem_slots_pairsOf hids hp]
  constructor
  · rintro ⟨k, hk, hslot⟩
    rwa [← slotIndex_unique hslots hslot]
  · intro hj
    exact ⟨j, hj, rfl⟩

theorem unmatchedEquations_matchingOf (hids : g.ids.Nodup) :
    (g.matchingOf slots p aborted).unmatchedEquations =
      g.ids.filter fun id => id ∉ (g.matchingOf slots p aborted).assignment.ids := by
  rw [unpaired_matchingOf hids]
  conv_rhs => rw [← finRange_map_id, List.filter_map]
  refine congrArg (List.map _) (List.filter_congr fun i _ => ?_)
  simp only [Function.comp_apply, id_mem_matchingOf hids]
  cases p.slotOf i <;> rfl

theorem unmatchedSlots_matchingOf (hids : g.ids.Nodup) (hslots : slots.toList.Nodup)
    (hp : p.Consistent (g.bipartite slots)) :
    (g.matchingOf slots p aborted).unmatchedSlots =
      slots.toList.filter fun slot => slot ∉ (g.matchingOf slots p aborted).assignment.slots := by
  have hall : slots.toList = (List.finRange m).map fun j => slots.get j :=
    List.ext_getElem (by simp) fun i _ _ => by simp [Vector.get]
  conv_rhs => rw [hall, List.filter_map]
  refine congrArg (List.map _) (List.filter_congr fun j _ => ?_)
  simp only [Function.comp_apply, mem_slots_matchingOf hids hslots hp]
  cases p.equationOf j <;> rfl

theorem ids_of_grows (h : p.Grows q) : (g.matchingOf slots p aborted).assignment.ids ⊆
    (g.matchingOf slots q aborted').assignment.ids := by
  intro id hid
  obtain ⟨i, hi, hid⟩ := mem_ids_matchingOf.mp hid
  exact mem_ids_matchingOf.mpr ⟨i, h.slotOf _ hi, hid⟩

theorem slots_of_grows (hids : g.ids.Nodup) (hslots : slots.toList.Nodup)
    (hp : p.Consistent (g.bipartite slots)) (hq : q.Consistent (g.bipartite slots))
    (h : p.Grows q) : (g.matchingOf slots p aborted).assignment.slots ⊆
      (g.matchingOf slots q aborted').assignment.slots := by
  intro slot hslot
  rw [Assignment.slots, pairs_matchingOf hids, mem_slots_pairsOf hids hp] at hslot
  obtain ⟨j, hj, rfl⟩ := hslot
  rw [mem_slots_matchingOf hids hslots hq]
  exact h.equationOf j hj

theorem unmatchedEquations_of_grows (h : p.Grows q) :
    (g.matchingOf slots q aborted').unmatchedEquations ⊆
      (g.matchingOf slots p aborted).unmatchedEquations := by
  intro id hid
  obtain ⟨i, hi, rfl⟩ := List.mem_map.mp hid
  have hfree := h.isNone_slotOf (List.mem_filter.mp hi).2
  exact List.mem_map_of_mem (List.mem_filter.mpr ⟨List.mem_finRange i, hfree⟩)

theorem unmatchedSlots_of_grows (h : p.Grows q) :
    (g.matchingOf slots q aborted').unmatchedSlots ⊆
      (g.matchingOf slots p aborted).unmatchedSlots := by
  intro slot hslot
  obtain ⟨j, hj, rfl⟩ := List.mem_map.mp hslot
  have hfree := h.isNone_equationOf (List.mem_filter.mp hj).2
  exact List.mem_map_of_mem (List.mem_filter.mpr ⟨List.mem_finRange j, hfree⟩)

end Incidence

namespace Model

variable {includeInitial : Bool} {g : Incidence}

theorem unmatched_of_aborted (m : Model) (hids : g.ids.Nodup) {maxSteps : Option Int}
    (h : (m.matching g maxSteps).aborted = true) :
    (m.matching g maxSteps).unmatchedEquations ≠ [] := by
  rw [m.matching_eq hids] at h ⊢
  obtain ⟨i, hi⟩ := Bipartite.exists_unpaired_of_aborted h
  rw [Incidence.unmatchedEquations_matchingOf hids]
  refine List.ne_nil_of_mem (a := (g.entries.get i).id) (List.mem_filter.mpr ⟨?_, ?_⟩)
  · exact Incidence.mem_ids.mpr ⟨_, List.getElem_mem _, rfl⟩
  · rw [decide_eq_true_eq, Incidence.id_mem_matchingOf hids]
    simpa [Bipartite.pair, Bipartite.pairAlong] using hi

/-- All bounds below zero stop the same searches. -/
theorem aborted_of_negative {m : Model} {b c : Int} (hb : b < 0) (hc : c < 0)
    (h : (m.matching g (some c)).aborted = true) : (m.matching g (some b)).aborted = true := by
  rw [m.matching_eq_along] at h ⊢
  exact (Bipartite.improve_snd_of_negative hb hc).trans h

/-- Only the warning about a search that was stopped can fail. -/
theorem findMatching_eq (m : Model) (g : Incidence) (maxSteps : Option Int) :
    m.findMatching g maxSteps =
      if (m.matching g maxSteps).aborted && !maxSteps.all isWritable then
        .error .unwritableInteger
      else .ok (m.matching g maxSteps) := by
  unfold findMatching Matching.searchWarnings
  cases maxSteps with
  | none => simp [bind, Except.bind, pure, Except.pure]
  | some steps =>
    dsimp only
    cases (m.matching g (some steps)).aborted <;> cases hwritable : isWritable steps <;>
      simp [whenWritable, hwritable, bind, Except.bind, pure, Except.pure]

/-- Whatever the bound on the search, the matching pairs entries with slots that they reference, no
slot twice. The unmatched entries and slots are exactly the others, in their order. What was matched
by the greedy start or after any search stays matched, and a search that is stopped leaves an entry
unmatched. The matching is returned, unless the search is stopped and its bound is too long for the
warning. -/
theorem matching_is_consistent (m : Model) (includeInitial : Bool) (g : Incidence)
    (maxSteps : Option Int) (h : m.incidence includeInitial = .ok g) :
    let x := m.matching g maxSteps
    let b := g.bipartite (m.slotVector g)
    (m.findMatching g maxSteps =
        if x.aborted && !maxSteps.all isWritable then .error .unwritableInteger else .ok x) ∧
      (g.ids.Nodup ∧ x.slots = m.slots g ∧ x.slots.Nodup ∧ g.IsMatching x.slots x.assignment) ∧
      x.unmatchedEquations = (g.ids.filter fun id => id ∉ x.assignment.ids) ∧
      x.unmatchedSlots = (x.slots.filter fun slot => slot ∉ x.assignment.slots) ∧
      (∀ before after, b.order = before ++ after →
        let y := g.matchingOf (m.slotVector g) (b.stage maxSteps before).1 false
        y.assignment.ids ⊆ x.assignment.ids ∧ y.assignment.slots ⊆ x.assignment.slots) ∧
      (x.aborted = true → x.unmatchedEquations ≠ []) := by
  intro x b
  have hids := m.nodup_ids h
  have hslots : (m.slotVector g).toList.Nodup := m.nodup_slots g
  have hp := b.consistent_pair maxSteps
  have hx : x = g.matchingOf (m.slotVector g) (b.pair maxSteps).1 (b.pair maxSteps).2 :=
    m.matching_eq hids maxSteps
  refine ⟨m.findMatching_eq g maxSteps,
    ⟨hids, rfl, m.nodup_slots g, (m.matching_admits h maxSteps).isMatching⟩, ?_, ?_, ?_, ?_⟩
  · rw [hx]
    exact Incidence.unmatchedEquations_matchingOf hids
  · rw [hx]
    exact Incidence.unmatchedSlots_matchingOf hids hslots hp
  · intro before after horder
    have hextends := b.stage_append_extends maxSteps before after
    rw [← horder, b.stage_order] at hextends
    rw [hx]
    exact ⟨Incidence.ids_of_grows hextends.toGrows,
      Incidence.slots_of_grows hids hslots (b.consistent_stage maxSteps before) hp hextends.toGrows⟩
  · exact m.unmatched_of_aborted hids

/-- The search for the third equation needs two slots. -/
theorem coupled_matching_is_consistent : ∃ g, coupled.incidence true = .ok g ∧
    (coupled.matching g (some 1)).aborted = true ∧
    g.IsMatching (coupled.slots g) (coupled.matching g (some 1)).assignment ∧
    (coupled.matching g (some 1)).unmatchedEquations = (g.ids.filter fun id =>
      id ∉ (coupled.matching g (some 1)).assignment.ids) ∧
    (coupled.matching g (some 1)).unmatchedEquations ≠ [] := by
  have haborted : (coupled.incidence true).map
      (fun g => (coupled.matching g (some 1)).aborted) = .ok true := by cbv
  obtain ⟨g, h, haborted⟩ := map_eq_ok.mp haborted
  obtain ⟨_, ⟨_, _, _, hmatching⟩, hunmatched, _, _, hstopped⟩ :=
    matching_is_consistent coupled true g (some 1) h
  exact ⟨g, h, haborted, hmatching, hunmatched, hstopped haborted⟩

/-- With a bound far below zero the first search is stopped at its first slot, and the bound is too
long for the warning. -/
theorem coupled_warning_fails : ∃ g, coupled.incidence true = .ok g ∧
    coupled.findMatching g (some (-Decimal.tens 5000)) = .error .unwritableInteger := by
  have haborted : (coupled.incidence true).map
      (fun g => (coupled.matching g (some (-1))).aborted) = .ok true := by cbv
  obtain ⟨g, hg, haborted⟩ := map_eq_ok.mp haborted
  have hlong : isWritable (-Decimal.tens 5000) = false := by decide +kernel
  refine ⟨g, hg, ?_⟩
  rw [findMatching_eq, aborted_of_negative (by decide +kernel) (by decide) haborted,
    Option.all_some, hlong]
  rfl

end Model

end Causality
