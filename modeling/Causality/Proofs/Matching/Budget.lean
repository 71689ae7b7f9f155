import Causality.Proofs.Matching.Stages

/-!
# Searches on a budget

A search on a budget goes the same way as one without, up to the slot that overdraws the budget.
There it gives up and leaves the pairing as it was. So a run on a budget is the run without one, cut
off before the search during which the visits of all searches exceed the budget.
-/

namespace Causality

/-! ### One search -/

namespace Search

variable {n m : Nat} {g : Bipartite n m} {p : Pairing n m} {s t : Search n m} {b : Nat}

def stepsAfter : Augmentation n m ⊕ Search n m → Nat := Sum.elim (·.steps) (·.steps)

theorem steps_le_stepsAfter (g : Bipartite n m) (p : Pairing n m) (s : Search n m) :
    s.steps ≤ stepsAfter (s.step g p none) := by
  unfold step
  split
  · exact Nat.le_refl _
  · exact Nat.le_refl _
  · split_ifs with hvisited hover
    · exact Nat.le_refl _
    · exact absurd hover Bool.false_ne_true
    · split <;> exact Nat.le_succ _

theorem run_of_inl {budget : Option Int} {a : Augmentation n m}
    (h : s.step g p budget = .inl a) : s.run g p budget = a := by
  rw [run, h]

theorem run_of_inr {budget : Option Int} (h : s.step g p budget = .inr t) :
    s.run g p budget = t.run g p budget := by
  rw [run, h]

theorem steps_le_run (g : Bipartite n m) (p : Pairing n m) (s : Search n m) :
    s.steps ≤ (s.run g p none).steps := by
  induction s using run.induct g p none with
  | case1 s a ha =>
    have hle := steps_le_stepsAfter g p s
    rw [ha] at hle
    rw [run_of_inl ha]
    exact hle
  | case2 s t ht ih =>
    have hle := steps_le_stepsAfter g p s
    rw [ht] at hle
    rw [run_of_inr ht]
    exact Nat.le_trans hle ih

theorem step_bounded (hs : s.steps ≤ b) : s.step g p (some (b : Int)) =
    if stepsAfter (s.step g p none) ≤ b then s.step g p none else .inl ⟨false, b + 1, p⟩ := by
  unfold step
  split
  · exact (if_pos hs).symm
  · exact (if_pos hs).symm
  · next i j rest outer hframes =>
    by_cases hvisited : j ∈ s.visited
    · simp only [if_pos hvisited]
      exact (if_pos hs).symm
    · simp only [if_neg hvisited, exceeds, Bool.false_eq_true, if_false, decide_eq_true_eq]
      by_cases hover : (b : Int) < ((s.steps + 1 : Nat) : Int)
      · obtain rfl : s.steps = b := by omega
        rw [if_pos hover]
        split <;> exact (if_neg (Nat.not_succ_le_self _)).symm
      · have hle : s.steps + 1 ≤ b := by omega
        rw [if_neg hover]
        split <;> exact (if_pos hle).symm

theorem run_bounded (hs : s.steps ≤ b) : s.run g p (some (b : Int)) =
    if (s.run g p none).steps ≤ b then s.run g p none else ⟨false, b + 1, p⟩ := by
  induction s using run.induct g p none with
  | case1 s a ha =>
    have hstep := step_bounded (g := g) (p := p) hs
    rw [ha] at hstep
    rw [run_of_inl ha]
    by_cases hle : a.steps ≤ b
    · rw [if_pos hle]
      exact run_of_inl (hstep.trans (if_pos hle))
    · rw [if_neg hle]
      exact run_of_inl (hstep.trans (if_neg hle))
  | case2 s t ht ih =>
    have hstep := step_bounded (g := g) (p := p) hs
    rw [ht] at hstep
    rw [run_of_inr ht]
    by_cases hle : t.steps ≤ b
    · rw [run_of_inr (hstep.trans (if_pos hle))]
      exact ih hle
    · rw [if_neg fun hlater => hle (Nat.le_trans (steps_le_run g p t) hlater)]
      exact run_of_inl (hstep.trans (if_neg hle))

end Search

/-! ### Searches in turn -/

namespace Bipartite

variable {n m : Nat} {g : Bipartite n m} {p : Pairing n m} {i : Fin n} {l l' : List (Fin n)}
  {b : Nat}

/-- On a budget a search finds what it finds without one, or else gives up and changes nothing. -/
theorem augment_bounded (g : Bipartite n m) (p : Pairing n m) (i : Fin n) (b : Nat) :
    g.augment p (some (b : Int)) i =
      if (g.augment p none i).steps ≤ b then g.augment p none i else ⟨false, b + 1, p⟩ :=
  Search.run_bounded (Nat.zero_le b)

def visits (g : Bipartite n m) : List (Fin n) → Pairing n m → Nat
  | [], _ => 0
  | i :: rest, p =>
    if (p.slotOf i).isSome then visits g rest p
    else (g.augment p none i).steps + visits g rest (g.augment p none i).pairing

theorem visits_append (g : Bipartite n m) (l l' : List (Fin n)) (p : Pairing n m) :
    g.visits (l ++ l') p = g.visits l p + g.visits l' (g.improve l none p).1 := by
  induction l generalizing p with
  | nil => exact (Nat.zero_add _).symm
  | cons i l ih =>
    rw [List.cons_append, visits, visits]
    by_cases hi : (p.slotOf i).isSome
    · rw [if_pos hi, if_pos hi, improve_cons_of_paired hi, ih]
    · rw [if_neg hi, if_neg hi, improve_cons_unbounded hi, ih, Nat.add_assoc]

/-- The run on a budget is over before the search from the equation `i`, which exceeds it. -/
structure CutOff (g : Bipartite n m) (p : Pairing n m) (b : Nat) (before : List (Fin n))
    (i : Fin n) : Prop where
  free : (g.improve before none p).1.slotOf i = none
  within : g.visits before p ≤ b
  beyond : b < g.visits (before ++ [i]) p

theorem improve_bounded_of_le (h : g.visits l p ≤ b) :
    g.improve l (some (b : Int)) p = g.improve l none p := by
  induction l generalizing p b with
  | nil => rfl
  | cons i l ih =>
    rw [visits] at h
    by_cases hi : (p.slotOf i).isSome
    · rw [if_pos hi] at h
      rw [improve_cons_of_paired hi, improve_cons_of_paired hi, ih h]
    · rw [if_neg hi] at h
      have hle : (g.augment p none i).steps ≤ b := by omega
      have hleft : (b : Int) - (g.augment p none i).steps =
          ((b - (g.augment p none i).steps : Nat) : Int) := by omega
      rw [improve_cons_bounded hi, improve_cons_unbounded hi, augment_bounded, if_pos hle, hleft,
        if_neg (by omega), ih (by omega)]

theorem improve_bounded_of_lt (h : b < g.visits l p) : ∃ before i after,
    l = before ++ i :: after ∧ g.CutOff p b before i ∧
      g.improve l (some (b : Int)) p = ((g.improve before none p).1, true) := by
  induction l generalizing p b with
  | nil => exact absurd h (Nat.not_lt_zero b)
  | cons i l ih =>
    rw [visits] at h
    by_cases hi : (p.slotOf i).isSome
    · rw [if_pos hi] at h
      obtain ⟨before, k, after, rfl, hcut, hrun⟩ := ih h
      refine ⟨i :: before, k, after, rfl, ⟨?_, ?_, ?_⟩, ?_⟩
      · rw [improve_cons_of_paired hi]
        exact hcut.free
      · rw [visits, if_pos hi]
        exact hcut.within
      · rw [List.cons_append, visits, if_pos hi]
        exact hcut.beyond
      · rw [improve_cons_of_paired hi, improve_cons_of_paired hi, hrun]
    · rw [if_neg hi] at h
      by_cases hle : (g.augment p none i).steps ≤ b
      · have hleft : (b : Int) - (g.augment p none i).steps =
            ((b - (g.augment p none i).steps : Nat) : Int) := by omega
        have hlt : b - (g.augment p none i).steps < g.visits l (g.augment p none i).pairing := by
          omega
        obtain ⟨before, k, after, rfl, hcut, hrun⟩ := ih hlt
        have hwithin := hcut.within
        have hbeyond := hcut.beyond
        refine ⟨i :: before, k, after, rfl, ⟨?_, ?_, ?_⟩, ?_⟩
        · rw [improve_cons_unbounded hi]
          exact hcut.free
        · rw [visits, if_neg hi]
          omega
        · rw [List.cons_append, visits, if_neg hi]
          omega
        · rw [improve_cons_bounded hi, improve_cons_unbounded hi, augment_bounded, if_pos hle,
            hleft, if_neg (by omega), hrun]
      · refine ⟨[], i, l, rfl, ⟨?_, Nat.zero_le b, ?_⟩, ?_⟩
        · simpa [improve] using hi
        · rw [List.nil_append, visits, if_neg hi]
          omega
        · rw [improve_cons_bounded hi, augment_bounded, if_neg hle, if_pos (by dsimp only; omega)]
          rfl

/-- The search that exceeds the budget leaves both sides of the pairing as they were. -/
theorem CutOff.augment_eq {before : List (Fin n)} (h : g.CutOff p b before i) :
    g.augment (g.improve before none p).1 (some ((b - g.visits before p : Nat) : Int)) i =
      ⟨false, b - g.visits before p + 1, (g.improve before none p).1⟩ := by
  have hwithin := h.within
  have hbeyond := h.beyond
  rw [visits_append, visits, if_neg (by simp [h.free]), visits, Nat.add_zero] at hbeyond
  rw [augment_bounded, if_neg (by omega)]

/-- A larger budget lasts at least as long. -/
theorem CutOff.prefix_of_le {k : Fin n} {c : Nat} {before before' : List (Fin n)}
    (h : g.CutOff p b before i) (h' : g.CutOff p c before' k) (hle : b ≤ c)
    (hl : before <+: l) (hl' : before' ++ [k] <+: l) : before <+: before' := by
  rcases List.prefix_or_prefix_of_prefix hl hl' with hprefix | ⟨between, rfl⟩
  · rcases List.prefix_concat_iff.mp hprefix with rfl | hprefix
    · have hwithin := h.within
      have hbeyond := h'.beyond
      omega
    · exact hprefix
  · have hwithin := h.within
    have hbeyond := h'.beyond
    rw [visits_append] at hwithin
    omega

/-- What is paired on a budget is paired on a larger one. -/
theorem improve_bounded_grows {c : Nat} (hle : b ≤ c) :
    (g.improve l (some (b : Int)) p).1.Grows (g.improve l (some (c : Int)) p).1 := by
  by_cases hb : g.visits l p ≤ b
  · rw [improve_bounded_of_le hb, improve_bounded_of_le (Nat.le_trans hb hle)]
    exact .refl _
  obtain ⟨before, i, after, hl, hcut, hrun⟩ := improve_bounded_of_lt (Nat.lt_of_not_le hb)
  rw [hrun]
  by_cases hc : g.visits l p ≤ c
  · rw [improve_bounded_of_le hc, hl, improve_append_none]
    exact g.improve_grows (i :: after) none _
  obtain ⟨before', k, after', hl', hcut', hrun'⟩ := improve_bounded_of_lt (Nat.lt_of_not_le hc)
  have hprefix : before <+: before' := by
    refine hcut.prefix_of_le hcut' hle (l := l) ⟨i :: after, hl.symm⟩ ⟨after', ?_⟩
    rw [hl', List.append_assoc, List.singleton_append]
  obtain ⟨between, rfl⟩ := hprefix
  rw [hrun']
  dsimp only
  rw [improve_append_none]
  exact g.improve_grows between none _

end Bipartite

/-! ### Matchings -/

namespace Model

variable {g : Incidence}

def totalVisits (m : Model) (g : Incidence) : Nat :=
  let b := g.bipartite (m.slotVector g)
  b.visits (g.searchOrder b) (b.greedy (g.searchOrder b))

theorem matching_of_le (m : Model) {k : Nat} (h : m.totalVisits g ≤ k) :
    m.matching g (some (k : Int)) = m.matching g none := by
  rw [m.matching_eq_along, m.matching_eq_along, Bipartite.pairAlong,
    Bipartite.improve_bounded_of_le h]
  rfl

/-- The matching is that of the run without a budget before the search that exceeds it. -/
theorem matching_of_lt (m : Model) {k : Nat} (h : k < m.totalVisits g) :
    let b := g.bipartite (m.slotVector g)
    let start := b.greedy (g.searchOrder b)
    ∃ before i after, g.searchOrder b = before ++ i :: after ∧ b.CutOff start k before i ∧
      m.matching g (some (k : Int)) =
        g.matchingOf (m.slotVector g) (b.improve before none start).1 true := by
  intro b start
  obtain ⟨before, i, after, horder, hcut, hrun⟩ := Bipartite.improve_bounded_of_lt h
  refine ⟨before, i, after, horder, hcut, ?_⟩
  rw [m.matching_eq_along, Bipartite.pairAlong, hrun]

theorem aborted_iff (m : Model) (g : Incidence) (k : Nat) :
    (m.matching g (some (k : Int))).aborted = true ↔ k < m.totalVisits g := by
  constructor
  · intro haborted
    by_contra hle
    rw [m.matching_of_le (Nat.le_of_not_lt hle), m.matching_eq_along] at haborted
    exact Bool.false_ne_true ((Bipartite.pairAlong_none_snd _ _).symm.trans haborted)
  · intro hlt
    obtain ⟨_, _, _, _, _, hmatching⟩ := m.matching_of_lt hlt
    rw [hmatching]
    rfl

/-- A budget only truncates the run. The search is stopped exactly if the run without a budget would
visit more slots, and makes no difference otherwise. What it is stopped with is the pairing before
the search that exceeds the budget, which leaves it as it is. So a larger budget matches at least
the same entries and leaves at most the same slots. A slot that is taken could only be left behind
by a second entry of the same id. -/
theorem budget_truncates (m : Model) (g : Incidence) (k : Nat) :
    let b := g.bipartite (m.slotVector g)
    let order := g.searchOrder b
    let pairing := fun l => (b.improve l none (b.greedy order)).1
    let visits := fun l => b.visits l (b.greedy order)
    ((m.matching g (some (k : Int))).aborted = true ↔ k < visits order) ∧
      ((m.matching g (some (k : Int))).aborted = false →
        m.matching g (some (k : Int)) = m.matching g none) ∧
      ((m.matching g (some (k : Int))).aborted = true → ∃ before i after,
        order = before ++ i :: after ∧ (pairing before).slotOf i = none ∧
        visits before ≤ k ∧ k < visits (before ++ [i]) ∧
        b.augment (pairing before) (some ((k - visits before : Nat) : Int)) i =
          ⟨false, k - visits before + 1, pairing before⟩ ∧
        m.matching g (some (k : Int)) = g.matchingOf (m.slotVector g) (pairing before) true) ∧
      ∀ k' : Nat, k ≤ k' →
        let x := m.matching g (some (k : Int))
        let x' := m.matching g (some (k' : Int))
        x.assignment.ids ⊆ x'.assignment.ids ∧
          x'.unmatchedEquations ⊆ x.unmatchedEquations ∧ x'.unmatchedSlots ⊆ x.unmatchedSlots ∧
          (g.ids.Nodup → x.assignment.slots ⊆ x'.assignment.slots) := by
  intro b order pairing visits
  refine ⟨m.aborted_iff g k, fun hdone => ?_, fun haborted => ?_, fun k' hle => ?_⟩
  · refine m.matching_of_le (Nat.le_of_not_lt fun hlt => ?_)
    rw [← m.aborted_iff, hdone] at hlt
    exact Bool.false_ne_true hlt
  · obtain ⟨before, i, after, horder, hcut, hmatching⟩ :=
      m.matching_of_lt ((m.aborted_iff g k).mp haborted)
    exact ⟨before, i, after, horder, hcut.free, hcut.within, hcut.beyond, hcut.augment_eq,
      hmatching⟩
  · have hgrows : (b.pairAlong order (some (k : Int))).1.Grows
        (b.pairAlong order (some (k' : Int))).1 := Bipartite.improve_bounded_grows hle
    refine ⟨Incidence.ids_of_grows hgrows, Incidence.unmatchedEquations_of_grows hgrows,
      Incidence.unmatchedSlots_of_grows hgrows, fun hids => ?_⟩
    have horder : order = b.order := Incidence.searchOrder_eq hids b
    have hconsistent : ∀ k : Nat, (b.pairAlong order (some (k : Int))).1.Consistent b := by
      intro k
      rw [horder]
      exact b.consistent_pair _
    exact Incidence.slots_of_grows hids (m.nodup_slots g) (hconsistent k) (hconsistent k') hgrows

/-- The search for the third equation visits two slots, so that it fails with a budget of one. -/
theorem coupled_budget_truncates : ∃ g, coupled.incidence true = .ok g ∧
    (coupled.matching g (some 1)).aborted = true ∧
    coupled.matching g (some 2) = coupled.matching g none ∧
    (coupled.matching g (some 1)).assignment.ids ⊆ (coupled.matching g (some 2)).assignment.ids ∧
    (coupled.matching g (some 1)).assignment.slots ⊆
      (coupled.matching g (some 2)).assignment.slots := by
  have hvisits : (coupled.incidence true).map coupled.totalVisits = .ok 2 := by cbv
  obtain ⟨g, h, hvisits⟩ := map_eq_ok.mp hvisits
  have hover : 1 < coupled.totalVisits g := by
    rw [hvisits]
    decide
  have henough : ¬ 2 < coupled.totalVisits g := by
    rw [hvisits]
    decide
  obtain ⟨haborted, -, -, hmore⟩ := budget_truncates coupled g 1
  obtain ⟨haborted', hsame, -, -⟩ := budget_truncates coupled g 2
  obtain ⟨hids, -, -, hslots⟩ := hmore 2 (by decide)
  refine ⟨g, h, haborted.mpr hover, hsame ?_, hids, hslots (coupled.nodup_ids h)⟩
  exact Bool.eq_false_iff.mpr fun hstopped => henough (haborted'.mp hstopped)

end Model

end Causality
