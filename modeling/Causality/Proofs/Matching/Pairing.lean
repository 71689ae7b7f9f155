import Causality.Matching.Pairing
import Mathlib.Data.Fintype.Card

/-!
# Consistent pairings

A pairing is consistent with a graph if its two sides agree and every pair is an edge. Writing a
pair over a free equation and a free slot keeps a pairing consistent, and so does flipping an
alternating path that ends in a free slot. A set of slots is closed if all of them are taken, by
equations without a candidate outside. No alternating path leaves a closed set, so a flip does not
touch it.

An equation that is tried several times may take another slot and leave the first one behind, still
marked as its own. Then only one side of a pairing can be relied on: the slot of an equation is
owned by it.
-/

namespace Causality.Pairing

variable {n m : Nat} {g : Bipartite n m} {p : Pairing n m}

structure Consistent (g : Bipartite n m) (p : Pairing n m) : Prop where
  slotOf_iff : ∀ i j, p.slotOf i = some j ↔ p.equationOf j = some i
  candidate : ∀ i j, p.slotOf i = some j → j ∈ g.candidates i

/-- The equations own their slots, but may own other slots as well. -/
structure Owned (g : Bipartite n m) (p : Pairing n m) : Prop where
  equationOf : ∀ i j, p.slotOf i = some j → p.equationOf j = some i
  candidate : ∀ i j, p.slotOf i = some j → j ∈ g.candidates i

/-- What is paired in `p`, from either side, is paired in `q`. -/
structure Grows (p q : Pairing n m) : Prop where
  slotOf : ∀ i, (p.slotOf i).isSome → (q.slotOf i).isSome
  equationOf : ∀ j, (p.equationOf j).isSome → (q.equationOf j).isSome

theorem Grows.refl (p : Pairing n m) : p.Grows p :=
  ⟨fun _ h => h, fun _ h => h⟩

theorem Grows.trans {q r : Pairing n m} (hpq : p.Grows q) (hqr : q.Grows r) : p.Grows r :=
  ⟨fun i h => hqr.slotOf i (hpq.slotOf i h), fun j h => hqr.equationOf j (hpq.equationOf j h)⟩

theorem Grows.isNone_slotOf {q : Pairing n m} (h : p.Grows q) {i : Fin n}
    (hi : (q.slotOf i).isNone) : (p.slotOf i).isNone := by
  rw [← Option.not_isSome, Bool.not_eq_true'] at hi ⊢
  exact Bool.eq_false_iff.mpr fun hsome => Bool.eq_false_iff.mp hi (h.slotOf i hsome)

theorem Grows.isNone_equationOf {q : Pairing n m} (h : p.Grows q) {j : Fin m}
    (hj : (q.equationOf j).isNone) : (p.equationOf j).isNone := by
  rw [← Option.not_isSome, Bool.not_eq_true'] at hj ⊢
  exact Bool.eq_false_iff.mpr fun hsome => Bool.eq_false_iff.mp hj (h.equationOf j hsome)

theorem Consistent.owned (hp : p.Consistent g) : p.Owned g :=
  ⟨fun i j => (hp.slotOf_iff i j).mp, hp.candidate⟩

theorem owned_empty : (empty : Pairing n m).Owned g :=
  ⟨fun i j h => by simp [empty] at h, fun i j h => by simp [empty] at h⟩

theorem Owned.slot_inj (hp : p.Owned g) {i k : Fin n} {j : Fin m}
    (hi : p.slotOf i = some j) (hk : p.slotOf k = some j) : i = k :=
  Option.some.inj ((hp.equationOf i j hi).symm.trans (hp.equationOf k j hk))

/-- A free slot is taken. The equation may have had another one. -/
theorem Owned.assign (hp : p.Owned g) {i : Fin n} {j : Fin m} (hj : p.equationOf j = none)
    (hc : j ∈ g.candidates i) : (p.assign i j).Owned g := by
  constructor
  · intro k l hkl
    simp only [Pairing.assign] at hkl ⊢
    split_ifs at hkl with hk
    · rw [if_pos (Option.some.inj hkl).symm, hk]
    · have howner := hp.equationOf k l hkl
      have hl : l ≠ j := by
        rintro rfl
        rw [hj] at howner
        cases howner
      rw [if_neg hl, howner]
  · intro k l hkl
    simp only [Pairing.assign] at hkl
    split_ifs at hkl with hk
    · rw [hk, ← Option.some.inj hkl]
      exact hc
    · exact hp.candidate k l hkl

theorem consistent_empty : (empty : Pairing n m).Consistent g :=
  ⟨fun i j => by simp [empty], fun i j h => by simp [empty] at h⟩

theorem Consistent.equation_inj (hp : p.Consistent g) {i : Fin n} {j k : Fin m}
    (hj : p.equationOf j = some i) (hk : p.equationOf k = some i) : j = k := by
  rw [← hp.slotOf_iff] at hj hk
  exact Option.some.inj (hj.symm.trans hk)

theorem Consistent.assign (hp : p.Consistent g) {i : Fin n} {j : Fin m}
    (hi : p.slotOf i = none) (hj : p.equationOf j = none) (hc : j ∈ g.candidates i) :
    (p.assign i j).Consistent g := by
  constructor
  · intro k l
    simp only [Pairing.assign]
    by_cases hk : k = i
    · subst hk
      by_cases hl : l = j
      · simp [hl]
      · have hne : p.equationOf l ≠ some k := by
          rw [Ne, ← hp.slotOf_iff, hi]
          simp
        simp [hl, Ne.symm hl, hne]
    · by_cases hl : l = j
      · subst hl
        have hne : p.slotOf k ≠ some l := by
          rw [Ne, hp.slotOf_iff, hj]
          simp
        simp [hk, Ne.symm hk, hne]
      · simpa [hk, hl] using hp.slotOf_iff k l
  · exact (hp.owned.assign hj hc).candidate

/-! ### Writing several pairs -/

theorem slotOf_assignAll_of_notMem {pairs : List (Fin n × Fin m)} {i : Fin n}
    (hi : i ∉ pairs.map (·.1)) : (p.assignAll pairs).slotOf i = p.slotOf i := by
  induction pairs with
  | nil => rfl
  | cons e pairs ih =>
    simp only [List.map_cons, List.mem_cons, not_or] at hi
    change (if i = e.1 then some e.2 else (p.assignAll pairs).slotOf i) = p.slotOf i
    rw [if_neg hi.1, ih hi.2]

theorem equationOf_assignAll_of_notMem {pairs : List (Fin n × Fin m)} {j : Fin m}
    (hj : j ∉ pairs.map (·.2)) : (p.assignAll pairs).equationOf j = p.equationOf j := by
  induction pairs with
  | nil => rfl
  | cons e pairs ih =>
    simp only [List.map_cons, List.mem_cons, not_or] at hj
    change (if j = e.2 then some e.1 else (p.assignAll pairs).equationOf j) = p.equationOf j
    rw [if_neg hj.1, ih hj.2]

/-- An equation that occurs several times keeps the slot of the first pair. -/
theorem exists_slotOf_assignAll {pairs : List (Fin n × Fin m)} {i : Fin n}
    (hi : i ∈ pairs.map (·.1)) : ∃ j, (i, j) ∈ pairs ∧ (p.assignAll pairs).slotOf i = some j := by
  induction pairs with
  | nil => simp at hi
  | cons e pairs ih =>
    change ∃ j, (i, j) ∈ e :: pairs ∧
      (if i = e.1 then some e.2 else (p.assignAll pairs).slotOf i) = some j
    by_cases hie : i = e.1
    · exact ⟨e.2, by simp [hie], if_pos hie⟩
    · rw [List.map_cons, List.mem_cons] at hi
      obtain ⟨j, hj, hslot⟩ := ih (hi.resolve_left hie)
      exact ⟨j, List.mem_cons_of_mem _ hj, (if_neg hie).trans hslot⟩

theorem slotOf_assignAll_of_mem {pairs : List (Fin n × Fin m)}
    (hn : (pairs.map (·.1)).Nodup) {i : Fin n} {j : Fin m} (hij : (i, j) ∈ pairs) :
    (p.assignAll pairs).slotOf i = some j := by
  obtain ⟨k, hik, hslot⟩ := exists_slotOf_assignAll (p := p) (List.mem_map_of_mem hij)
  rw [hslot, (Prod.mk.inj (List.inj_on_of_nodup_map hn hij hik rfl)).2]

theorem equationOf_assignAll_of_mem {pairs : List (Fin n × Fin m)}
    (hn : (pairs.map (·.2)).Nodup) {i : Fin n} {j : Fin m} (hij : (i, j) ∈ pairs) :
    (p.assignAll pairs).equationOf j = some i := by
  induction pairs with
  | nil => simp at hij
  | cons e pairs ih =>
    rw [List.map_cons, List.nodup_cons] at hn
    change (if j = e.2 then some e.1 else (p.assignAll pairs).equationOf j) = some i
    rcases List.mem_cons.mp hij with rfl | hij
    · rw [if_pos rfl]
    · have hne : j ≠ e.2 := by
        rintro rfl
        exact hn.1 (List.mem_map.mpr ⟨_, hij, rfl⟩)
      rw [if_neg hne, ih hn.2 hij]

/-! ### Alternating paths -/

/-- An alternating path from `root`: the equations on it and the slots that lead from one to the
next, the last ones first. -/
inductive Trail (g : Bipartite n m) (p : Pairing n m) (root : Fin n) :
    List (Fin n) → List (Fin m) → Prop
  | start : Trail g p root [root] []
  | extend {i : Fin n} {es : List (Fin n)} {js : List (Fin m)} {j : Fin m} {k : Fin n} :
      Trail g p root (i :: es) js → j ∈ g.candidates i → p.equationOf j = some k →
      Trail g p root (k :: i :: es) (j :: js)

namespace Trail

variable {root : Fin n} {es : List (Fin n)} {js : List (Fin m)}

theorem length_eq (ht : Trail g p root es js) : es.length = js.length + 1 := by
  induction ht with
  | start => rfl
  | extend _ _ _ ih => simpa using ih

theorem exists_head (ht : Trail g p root es js) : ∃ i, i ∈ es.head? := by
  cases ht with
  | start => exact ⟨root, rfl⟩
  | @extend _ _ _ _ k _ _ _ => exact ⟨k, rfl⟩

theorem root_mem (ht : Trail g p root es js) : root ∈ es := by
  induction ht with
  | start => exact List.mem_singleton_self root
  | extend _ _ _ ih => exact List.mem_cons_of_mem _ ih

theorem owner_mem (ht : Trail g p root es js) {j : Fin m} (hj : j ∈ js) {k : Fin n}
    (hk : p.equationOf j = some k) : k ∈ es := by
  induction ht with
  | start => simp at hj
  | @extend i es js l o _ _ ho ih =>
    rcases List.mem_cons.mp hj with rfl | hj
    · rw [ho] at hk
      exact Option.some.inj hk ▸ List.mem_cons_self
    · exact List.mem_cons_of_mem _ (ih hj)

theorem isSome_owner (ht : Trail g p root es js) {j : Fin m} (hj : j ∈ js) :
    (p.equationOf j).isSome := by
  induction ht with
  | start => simp at hj
  | extend _ _ ho ih =>
    rcases List.mem_cons.mp hj with rfl | hj
    · simp [ho]
    · exact ih hj

theorem eq_root_or_owner (ht : Trail g p root es js) {i : Fin n} (hi : i ∈ es) :
    i = root ∨ ∃ j ∈ js, p.equationOf j = some i := by
  induction ht with
  | start => exact Or.inl (List.mem_singleton.mp hi)
  | @extend _ _ _ j k _ _ ho ih =>
    rcases List.mem_cons.mp hi with rfl | hi
    · exact Or.inr ⟨j, List.mem_cons_self, ho⟩
    · rcases ih hi with hr | ⟨l, hl, hli⟩
      · exact Or.inl hr
      · exact Or.inr ⟨l, List.mem_cons_of_mem _ hl, hli⟩

/-- Different slots belong to different equations, so a path that repeats no slot repeats no
equation. -/
theorem nodup (hp : p.Consistent g) (hroot : p.slotOf root = none)
    (ht : Trail g p root es js) (hn : js.Nodup) : es.Nodup := by
  induction ht with
  | start => exact List.nodup_singleton root
  | @extend i es js j k ht _ hk ih =>
    rw [List.nodup_cons] at hn ⊢
    refine ⟨?_, ih hn.2⟩
    intro hmem
    rcases ht.eq_root_or_owner hmem with rfl | ⟨l, hl, hlk⟩
    · rw [← hp.slotOf_iff, hroot] at hk
      cases hk
    · exact hn.1 (hp.equation_inj hk hlk ▸ hl)

theorem candidate_of_mem_zip (ht : Trail g p root es js) {j : Fin m}
    (hj : ∀ i ∈ es.head?, j ∈ g.candidates i) {e : Fin n × Fin m} (he : e ∈ es.zip (j :: js)) :
    e.2 ∈ g.candidates e.1 := by
  induction ht generalizing j with
  | start =>
    rw [List.zip_cons_cons, List.zip_nil_right, List.mem_singleton] at he
    rw [he]
    exact hj root rfl
  | @extend i es js l k _ hl _ ih =>
    rw [List.zip_cons_cons, List.mem_cons] at he
    rcases he with rfl | he
    · exact hj k rfl
    · refine ih (fun i' hi' => ?_) he
      rw [List.head?_cons, Option.mem_some_iff] at hi'
      exact hi' ▸ hl

end Trail

/-! ### Closed sets -/

def Closed (g : Bipartite n m) (p : Pairing n m) (S : Set (Fin m)) : Prop :=
  ∀ j ∈ S, ∃ i, p.equationOf j = some i ∧ ∀ k ∈ g.candidates i, k ∈ S

/-- The candidates of the equation lie in a closed set. -/
def Blocked (g : Bipartite n m) (p : Pairing n m) (i : Fin n) : Prop :=
  ∃ S, p.Closed g S ∧ ∀ j ∈ g.candidates i, j ∈ S

namespace Trail

variable {root : Fin n} {es : List (Fin n)} {js : List (Fin m)} {S : Set (Fin m)}

/-- A path that meets a closed set ends at an equation whose candidates lie in it. -/
theorem head_subset_of_mem (ht : Trail g p root es js) (hS : p.Closed g S) {j : Fin m}
    (hj : j ∈ js) (hjS : j ∈ S) : ∀ i ∈ es.head?, ∀ k ∈ g.candidates i, k ∈ S := by
  induction ht with
  | start => simp at hj
  | @extend i es js l k _ hl hk ih =>
    have hlS : l ∈ S := by
      rcases List.mem_cons.mp hj with rfl | hj
      · exact hjS
      · exact ih hj i rfl l hl
    obtain ⟨o, ho, hoS⟩ := hS l hlS
    rw [hk, Option.some.injEq] at ho
    simpa [ho] using hoS

theorem head_subset_of_root (ht : Trail g p root es js) (hS : p.Closed g S)
    (hroot : ∀ j ∈ g.candidates root, j ∈ S) :
    ∀ i ∈ es.head?, ∀ k ∈ g.candidates i, k ∈ S := by
  induction ht with
  | start => simpa using hroot
  | @extend i es js l k _ hl hk ih =>
    obtain ⟨o, ho, hoS⟩ := hS l (ih i rfl l hl)
    rw [hk, Option.some.injEq] at ho
    simpa [ho] using hoS

end Trail

/-! ### Flips -/

/-- `q` arises from `p` by flipping an alternating path from `root` to the free slot `target`. -/
structure Flip (g : Bipartite n m) (p : Pairing n m) (root : Fin n) (target : Fin m)
    (es : List (Fin n)) (js : List (Fin m)) (q : Pairing n m) : Prop where
  trail : Trail g p root es js
  nodup : js.Nodup
  edge : ∀ i ∈ es.head?, target ∈ g.candidates i
  free : p.equationOf target = none
  eq : q = p.assignAll (es.zip (target :: js))

namespace Flip

variable {root : Fin n} {target : Fin m} {es : List (Fin n)} {js : List (Fin m)}
  {q : Pairing n m}

theorem map_fst (h : Flip g p root target es js q) :
    (es.zip (target :: js)).map (·.1) = es :=
  List.map_fst_zip (by simp [h.trail.length_eq])

theorem map_snd (h : Flip g p root target es js q) :
    (es.zip (target :: js)).map (·.2) = target :: js :=
  List.map_snd_zip (by simp [h.trail.length_eq])

theorem slot_of_mem (h : Flip g p root target es js q) {i : Fin n} (hi : i ∈ es) :
    ∃ j, (i, j) ∈ es.zip (target :: js) := by
  rw [← h.map_fst] at hi
  obtain ⟨e, he, rfl⟩ := List.mem_map.mp hi
  exact ⟨e.2, he⟩

theorem equation_of_mem (h : Flip g p root target es js q) {j : Fin m}
    (hj : j ∈ target :: js) : ∃ i, (i, j) ∈ es.zip (target :: js) := by
  rw [← h.map_snd] at hj
  obtain ⟨e, he, rfl⟩ := List.mem_map.mp hj
  exact ⟨e.1, he⟩

theorem target_notMem (h : Flip g p root target es js q) : target ∉ js := by
  intro hmem
  have hs := h.trail.isSome_owner hmem
  rw [h.free] at hs
  cases hs

theorem slotOf_of_mem (h : Flip g p root target es js q) (hp : p.Consistent g)
    (hroot : p.slotOf root = none) {i : Fin n} {j : Fin m}
    (hij : (i, j) ∈ es.zip (target :: js)) : q.slotOf i = some j := by
  rw [h.eq]
  refine slotOf_assignAll_of_mem ?_ hij
  rw [h.map_fst]
  exact h.trail.nodup hp hroot h.nodup

theorem equationOf_of_mem (h : Flip g p root target es js q) {i : Fin n} {j : Fin m}
    (hij : (i, j) ∈ es.zip (target :: js)) : q.equationOf j = some i := by
  rw [h.eq]
  refine equationOf_assignAll_of_mem ?_ hij
  rw [h.map_snd]
  exact List.nodup_cons.mpr ⟨h.target_notMem, h.nodup⟩

theorem slotOf_of_notMem (h : Flip g p root target es js q) {i : Fin n} (hi : i ∉ es) :
    q.slotOf i = p.slotOf i := by
  rw [h.eq]
  refine slotOf_assignAll_of_notMem ?_
  rwa [h.map_fst]

theorem equationOf_of_notMem (h : Flip g p root target es js q) {j : Fin m}
    (hj : j ∉ target :: js) : q.equationOf j = p.equationOf j := by
  rw [h.eq]
  refine equationOf_assignAll_of_notMem ?_
  rwa [h.map_snd]

/-- After a flip an equation has a slot that the path gives it, or the one that it had before if the
path does not meet it. -/
theorem slotOf_eq_some (h : Flip g p root target es js q) {i : Fin n} {j : Fin m}
    (hij : q.slotOf i = some j) :
    (i, j) ∈ es.zip (target :: js) ∨ i ∉ es ∧ p.slotOf i = some j := by
  by_cases hi : i ∈ es
  · have hfst : i ∈ (es.zip (target :: js)).map (·.1) := h.map_fst.symm ▸ hi
    obtain ⟨k, hk, hslot⟩ := exists_slotOf_assignAll (p := p) hfst
    rw [← h.eq, hij, Option.some.injEq] at hslot
    exact .inl (hslot ▸ hk)
  · rw [h.slotOf_of_notMem hi] at hij
    exact .inr ⟨hi, hij⟩

theorem owned (h : Flip g p root target es js q) (hp : p.Owned g) : q.Owned g := by
  constructor
  · intro i j hij
    rcases h.slotOf_eq_some hij with hpair | ⟨hi, hslot⟩
    · exact h.equationOf_of_mem hpair
    · have howner := hp.equationOf i j hslot
      rw [h.equationOf_of_notMem, howner]
      intro hj
      rcases List.mem_cons.mp hj with rfl | hj
      · rw [h.free] at howner
        cases howner
      · exact hi (h.trail.owner_mem hj howner)
  · intro i j hij
    rcases h.slotOf_eq_some hij with hpair | ⟨_, hslot⟩
    · exact h.trail.candidate_of_mem_zip h.edge hpair
    · exact hp.candidate i j hslot

theorem consistent (h : Flip g p root target es js q) (hp : p.Consistent g)
    (hroot : p.slotOf root = none) : q.Consistent g := by
  have howned := h.owned hp.owned
  refine ⟨fun i j => ⟨howned.equationOf i j, fun hij => ?_⟩, howned.candidate⟩
  by_cases hj : j ∈ target :: js
  · obtain ⟨k, hk⟩ := h.equation_of_mem hj
    rw [h.equationOf_of_mem hk, Option.some.injEq] at hij
    exact hij ▸ h.slotOf_of_mem hp hroot hk
  · rw [h.equationOf_of_notMem hj, ← hp.slotOf_iff] at hij
    rw [h.slotOf_of_notMem, hij]
    intro hi
    rcases h.trail.eq_root_or_owner hi with rfl | ⟨k, hk, hki⟩
    · rw [hroot] at hij
      cases hij
    · rw [hp.slotOf_iff] at hij
      exact hj (List.mem_cons_of_mem _ (hp.equation_inj hki hij ▸ hk))

theorem isSome_slotOf (h : Flip g p root target es js q) (hp : p.Consistent g)
    (hroot : p.slotOf root = none) (i : Fin n) :
    (q.slotOf i).isSome ↔ i = root ∨ (p.slotOf i).isSome := by
  by_cases hi : i ∈ es
  · obtain ⟨j, hj⟩ := h.slot_of_mem hi
    have hr : i = root ∨ (p.slotOf i).isSome := by
      rcases h.trail.eq_root_or_owner hi with hr | ⟨k, _, hk⟩
      · exact Or.inl hr
      · rw [← hp.slotOf_iff] at hk
        exact Or.inr (by simp [hk])
    simp [h.slotOf_of_mem hp hroot hj, hr]
  · have hne : i ≠ root := by
      rintro rfl
      exact hi h.trail.root_mem
    simp [h.slotOf_of_notMem hi, hne]

theorem isSome_equationOf (h : Flip g p root target es js q) (j : Fin m) :
    (q.equationOf j).isSome ↔ j = target ∨ (p.equationOf j).isSome := by
  by_cases hj : j ∈ target :: js
  · obtain ⟨i, hi⟩ := h.equation_of_mem hj
    have hr : j = target ∨ (p.equationOf j).isSome := by
      rcases List.mem_cons.mp hj with hr | hj
      · exact Or.inl hr
      · exact Or.inr (h.trail.isSome_owner hj)
    simp [h.equationOf_of_mem hi, hr]
  · have hne : j ≠ target := by
      rintro rfl
      exact hj List.mem_cons_self
    simp [h.equationOf_of_notMem hj, hne]

theorem grows (h : Flip g p root target es js q) : p.Grows q := by
  constructor
  · intro i hi
    by_cases hpath : i ∈ es
    · have hfst : i ∈ (es.zip (target :: js)).map (·.1) := h.map_fst.symm ▸ hpath
      obtain ⟨j, _, hslot⟩ := exists_slotOf_assignAll (p := p) hfst
      rw [h.eq, hslot]
      rfl
    · rwa [h.slotOf_of_notMem hpath]
  · exact fun j hj => (h.isSome_equationOf j).mpr (.inr hj)

theorem notMem_closed (h : Flip g p root target es js q) {S : Set (Fin m)}
    (hS : p.Closed g S) : ∀ j ∈ target :: js, j ∉ S := by
  have htarget : target ∉ S := by
    intro ht
    obtain ⟨i, hi, _⟩ := hS target ht
    rw [h.free] at hi
    cases hi
  intro j hj hjS
  rcases List.mem_cons.mp hj with rfl | hj
  · exact htarget hjS
  · obtain ⟨k, hk⟩ := h.trail.exists_head
    exact htarget (h.trail.head_subset_of_mem hS hj hjS k hk target (h.edge k hk))

theorem closed (h : Flip g p root target es js q) {S : Set (Fin m)} (hS : p.Closed g S) :
    q.Closed g S := by
  intro j hj
  obtain ⟨i, hi, hiS⟩ := hS j hj
  refine ⟨i, ?_, hiS⟩
  rw [h.equationOf_of_notMem fun hmem => h.notMem_closed hS j hmem hj, hi]

end Flip

/-- No flip starts from a blocked equation. -/
theorem Blocked.not_flip {root : Fin n} (hb : p.Blocked g root) {target : Fin m}
    {es : List (Fin n)} {js : List (Fin m)} {q : Pairing n m} :
    ¬ Flip g p root target es js q := by
  intro h
  obtain ⟨S, hS, hroot⟩ := hb
  obtain ⟨k, hk⟩ := h.trail.exists_head
  exact h.notMem_closed hS target List.mem_cons_self
    (h.trail.head_subset_of_root hS hroot k hk target (h.edge k hk))

end Causality.Pairing
