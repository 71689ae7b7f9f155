import Causality.Proofs.Matching.Search

/-!
# Maximum pairings

Searches only extend a pairing: what is paired stays paired and what is closed stays closed. So an
equation whose search failed once is blocked from then on, and one search from each equation is
enough. A pairing whose unpaired equations are all blocked is maximum: of any other matching, the
pairs with a slot in a closed set are counted by the owners of their slots, the rest by their
equations.
-/

namespace Causality

namespace Pairing

variable {n m : Nat} {g : Bipartite n m} {p q r : Pairing n m}

structure Extends (g : Bipartite n m) (p q : Pairing n m) : Prop extends Grows p q where
  consistent : q.Consistent g
  closed : ∀ S, p.Closed g S → q.Closed g S

theorem Extends.refl (hp : p.Consistent g) : p.Extends g p :=
  ⟨.refl p, hp, fun _ h => h⟩

theorem Extends.trans (hpq : p.Extends g q) (hqr : q.Extends g r) : p.Extends g r :=
  ⟨hpq.toGrows.trans hqr.toGrows, hqr.consistent, fun S h => hqr.closed S (hpq.closed S h)⟩

theorem Extends.blocked (hpq : p.Extends g q) {i : Fin n} (hi : p.Blocked g i) :
    q.Blocked g i := by
  obtain ⟨S, hS, hiS⟩ := hi
  exact ⟨S, hpq.closed S hS, hiS⟩

/-- The union of all closed sets. -/
def core (g : Bipartite n m) (p : Pairing n m) : Set (Fin m) := {j | ∃ S, p.Closed g S ∧ j ∈ S}

theorem closed_core : p.Closed g (p.core g) := by
  rintro j ⟨S, hS, hj⟩
  obtain ⟨i, hi, hiS⟩ := hS j hj
  exact ⟨i, hi, fun k hk => ⟨S, hS, hiS k hk⟩⟩

theorem Blocked.mem_core {i : Fin n} (hi : p.Blocked g i) {j : Fin m}
    (hj : j ∈ g.candidates i) : j ∈ p.core g := by
  obtain ⟨S, hS, hiS⟩ := hi
  exact ⟨S, hS, hiS j hj⟩

open Classical in
/-- No matching has more pairs than a pairing whose unpaired equations are blocked. -/
theorem Consistent.card_le_of_blocked (hp : p.Consistent g)
    (hb : ∀ i, p.slotOf i = none → p.Blocked g i) (M : Finset (Fin n × Fin m))
    (hM : ∀ e ∈ M, e.2 ∈ g.candidates e.1) (hfst : Set.InjOn Prod.fst (M : Set (Fin n × Fin m)))
    (hsnd : Set.InjOn Prod.snd (M : Set (Fin n × Fin m))) :
    M.card ≤ (Finset.univ.filter fun i => (p.slotOf i).isSome).card := by
  let charge : Fin n × Fin m → Fin n := fun e =>
    if e.2 ∈ p.core g then (p.equationOf e.2).getD e.1 else e.1
  have hin : ∀ e, e.2 ∈ p.core g → p.equationOf e.2 = some (charge e) ∧
      ∀ k ∈ g.candidates (charge e), k ∈ p.core g := by
    intro e he
    obtain ⟨i, hi, hiS⟩ := closed_core e.2 he
    have hc : charge e = i := by simp [charge, he, hi]
    exact ⟨hc ▸ hi, hc ▸ hiS⟩
  have hout : ∀ e, e.2 ∉ p.core g → charge e = e.1 := fun e he => if_neg he
  refine Finset.card_le_card_of_injOn charge ?_ ?_
  · intro e he
    simp only [Finset.coe_filter, Finset.mem_univ, true_and, Set.mem_ofPred_eq]
    by_cases hS : e.2 ∈ p.core g
    · have hslot := (hp.slotOf_iff (charge e) e.2).mpr (hin e hS).1
      simp [hslot]
    · rw [hout e hS, ← Option.ne_none_iff_isSome]
      intro hnone
      exact hS ((hb e.1 hnone).mem_core (hM e he))
  · intro e he f hf hef
    by_cases heS : e.2 ∈ p.core g
    · have hfS : f.2 ∈ p.core g := by
        by_contra hfS
        rw [hout f hfS] at hef
        exact hfS ((hin e heS).2 f.2 (hef ▸ hM f hf))
      have hslot : p.equationOf e.2 = some (charge f) := hef ▸ (hin e heS).1
      exact hsnd he hf (hp.equation_inj hslot (hin f hfS).1)
    · have hfS : f.2 ∉ p.core g := by
        intro hfS
        rw [hout e heS] at hef
        exact heS ((hin f hfS).2 e.2 (hef ▸ hM e he))
      rw [hout e heS, hout f hfS] at hef
      exact hfst he hf hef

end Pairing

namespace Bipartite

open Pairing

variable {n m : Nat} {g : Bipartite n m} {p : Pairing n m}

/-! ### The greedy start -/

/-- The equations with their priorities, as they are sorted. -/
def ranked (g : Bipartite n m) : List ((Nat × Nat) × Fin n) :=
  (List.finRange n).map fun i => (g.priority i, i)

theorem map_snd_ranked (g : Bipartite n m) : g.ranked.map (·.2) = List.finRange n := by
  rw [ranked, List.map_map]
  exact List.map_id _

theorem order_perm (g : Bipartite n m) : g.order.Perm (List.finRange n) := by
  have hperm := (List.mergeSort_perm g.ranked fun a b => notAfter a.1 b.1).map (·.2)
  rwa [map_snd_ranked] at hperm

theorem mem_order (g : Bipartite n m) (i : Fin n) : i ∈ g.order :=
  g.order_perm.mem_iff.mpr (List.mem_finRange i)

theorem nodup_order (g : Bipartite n m) : g.order.Nodup :=
  g.order_perm.nodup_iff.mpr (List.nodup_finRange n)

theorem pair_sublist {α : Type} {a b : α} {l : List α} (ha : a ∈ l) (hb : b ∈ l) (hne : a ≠ b) :
    [a, b].Sublist l ∨ [b, a].Sublist l := by
  induction l with
  | nil => cases ha
  | cons c l ih =>
    rcases List.mem_cons.mp ha with rfl | ha'
    · have hbl : b ∈ l := (List.mem_cons.mp hb).resolve_left (Ne.symm hne)
      exact Or.inl (List.cons_sublist_cons.mpr (List.singleton_sublist.mpr hbl))
    · rcases List.mem_cons.mp hb with rfl | hb'
      · exact Or.inr (List.cons_sublist_cons.mpr (List.singleton_sublist.mpr ha'))
      · exact (ih ha' hb').imp (·.cons c) (·.cons c)

theorem not_pair_sublist_swap {α : Type} {a b : α} {l : List α} (hl : l.Nodup)
    (hab : [a, b].Sublist l) : ¬ [b, a].Sublist l := by
  induction l with
  | nil => cases hab
  | cons c l ih =>
    rw [List.nodup_cons] at hl
    intro hba
    cases hab with
    | cons _ hab =>
      cases hba with
      | cons _ hba => exact ih hl.2 hab hba
      | cons_cons _ hba => exact hl.1 (hab.subset (by simp))
    | cons_cons _ hab =>
      cases hba with
      | cons _ hba => exact hl.1 (hba.subset (by simp))
      | cons_cons _ hba => exact hl.1 (List.singleton_sublist.mp hab)

theorem notAfter_iff {a b : Nat × Nat} :
    notAfter a b = true ↔ a.1 < b.1 ∨ a.1 = b.1 ∧ a.2 ≤ b.2 := by
  simp [notAfter]

/-- Sorting keeps the order of the elements that it does not tell apart. -/
theorem pairwise_mergeSort_of_pairwise {α : Type} {le : α → α → Bool} {R : α → α → Prop}
    {l : List α} (htrans : ∀ a b c, le a b → le b c → le a c)
    (htotal : ∀ a b, (le a b || le b a) = true) (hnodup : l.Nodup) (hl : l.Pairwise R) :
    (l.mergeSort le).Pairwise fun a b => le a b = true ∧ (le b a = true → R a b) := by
  have hperm := List.mergeSort_perm l le
  have hsorted : (l.mergeSort le).Nodup := hperm.nodup_iff.mpr hnodup
  rw [List.pairwise_iff_forall_sublist]
  intro a b hab
  have hle := List.rel_of_pairwise_cons
    ((List.pairwise_mergeSort htrans htotal l).sublist hab) List.mem_cons_self
  refine ⟨hle, fun hsame => ?_⟩
  have hne : a ≠ b := List.rel_of_pairwise_cons (hsorted.sublist hab) List.mem_cons_self
  have ha : a ∈ l := hperm.subset (hab.subset List.mem_cons_self)
  have hb : b ∈ l := hperm.subset (hab.subset (List.mem_cons_of_mem _ List.mem_cons_self))
  rcases pair_sublist ha hb hne with h | h
  · exact List.rel_of_pairwise_cons (hl.sublist h) List.mem_cons_self
  · exact absurd (List.pair_sublist_mergeSort htrans htotal hsame h)
      (not_pair_sublist_swap hsorted hab)

/-- Equations are ordered by the number of their candidates, then by position, and stay in their
order where both are the same. -/
theorem pairwise_order (g : Bipartite n m) : g.order.Pairwise fun i k =>
    (g.candidates i).length < (g.candidates k).length ∨
      (g.candidates i).length = (g.candidates k).length ∧
        (g.position i < g.position k ∨ g.position i = g.position k ∧ i < k) := by
  let le : (Nat × Nat) × Fin n → (Nat × Nat) × Fin n → Bool := fun a b => notAfter a.1 b.1
  have htrans : ∀ a b c, le a b → le b c → le a c := by
    simp only [le, notAfter_iff]
    omega
  have htotal : ∀ a b, (le a b || le b a) = true := by
    simp only [le, Bool.or_eq_true, notAfter_iff]
    omega
  have hlt : g.ranked.Pairwise fun a b => a.2 < b.2 := by
    rw [ranked, List.pairwise_map]
    exact List.pairwise_lt_finRange n
  have hnodup : g.ranked.Nodup := hlt.imp fun hab heq => hab.ne (congrArg Prod.snd heq)
  have hrank : ∀ a ∈ g.ranked.mergeSort le, a.1 = g.priority a.2 := by
    intro a ha
    obtain ⟨i, _, rfl⟩ := List.mem_map.mp (List.mem_mergeSort.mp ha)
    rfl
  rw [order, List.pairwise_map]
  apply (pairwise_mergeSort_of_pairwise htrans htotal hnodup hlt).imp_of_mem
  rintro a b ha hb ⟨hle, hsame⟩
  simp only [le, notAfter_iff, hrank a ha, hrank b hb, priority] at hle hsame
  omega

/-- Where the equations are numbered by their positions, their numbers decide. -/
theorem pairwise_order_of_position (g : Bipartite n m) (h : ∀ i, g.position i = i) :
    g.order.Pairwise fun i k => (g.candidates i).length < (g.candidates k).length ∨
      (g.candidates i).length = (g.candidates k).length ∧ i < k := by
  refine g.pairwise_order.imp fun hik => hik.imp_right fun ⟨heq, hplace⟩ => ⟨heq, ?_⟩
  rw [h, h, Fin.val_fin_lt] at hplace
  exact hplace.elim id And.right

theorem slotOf_takeFirstFree {i k : Fin n} (hk : k ≠ i) :
    (g.takeFirstFree p i).slotOf k = p.slotOf k := by
  unfold takeFirstFree
  split
  · simp [Pairing.assign, hk]
  · rfl

theorem consistent_takeFirstFree (hp : p.Consistent g) {i : Fin n} (hi : p.slotOf i = none) :
    (g.takeFirstFree p i).Consistent g := by
  unfold takeFirstFree
  split
  · next j hj =>
    have hfree : p.equationOf j = none := by simpa using List.find?_some hj
    exact hp.assign hi hfree (List.mem_of_find?_eq_some hj)
  · exact hp

theorem consistent_foldl_takeFirstFree {l : List (Fin n)} (hl : l.Nodup) (hp : p.Consistent g)
    (hfree : ∀ i ∈ l, p.slotOf i = none) : (l.foldl g.takeFirstFree p).Consistent g := by
  induction l generalizing p with
  | nil => exact hp
  | cons i l ih =>
    rw [List.nodup_cons] at hl
    refine ih hl.2 (consistent_takeFirstFree hp (hfree i List.mem_cons_self)) ?_
    intro k hk
    have hne : k ≠ i := by
      rintro rfl
      exact hl.1 hk
    rw [slotOf_takeFirstFree hne, hfree k (List.mem_cons_of_mem _ hk)]

theorem consistent_greedy (g : Bipartite n m) : (g.greedy g.order).Consistent g :=
  consistent_foldl_takeFirstFree g.nodup_order consistent_empty fun _ _ => rfl

theorem owned_takeFirstFree (hp : p.Owned g) (i : Fin n) : (g.takeFirstFree p i).Owned g := by
  unfold takeFirstFree
  split
  · next j hj =>
    have hfree : p.equationOf j = none := by simpa using List.find?_some hj
    exact hp.assign hfree (List.mem_of_find?_eq_some hj)
  · exact hp

theorem owned_greedy (g : Bipartite n m) (l : List (Fin n)) : (g.greedy l).Owned g :=
  List.foldlRecOn l g.takeFirstFree owned_empty fun _ hp i _ => owned_takeFirstFree hp i

/-! ### Searches in turn -/

/-- What holds at first and is kept by every search holds in the end. -/
theorem improve_of_augment {motive : Pairing n m → Prop} (l : List (Fin n)) (budget : Option Int)
    (hp : motive p) (hstep : ∀ q budget i, motive q → q.slotOf i = none →
      motive (g.augment q budget i).pairing) : motive (g.improve l budget p).1 := by
  induction l generalizing budget p with
  | nil => exact hp
  | cons i l ih =>
    unfold improve
    by_cases hi : (p.slotOf i).isSome
    · rw [if_pos hi]
      exact ih budget hp
    · have haug : ∀ budget, motive (g.augment p budget i).pairing :=
        fun budget => hstep p budget i hp (by simpa using hi)
      rw [if_neg hi]
      cases budget with
      | none => exact ih none (haug none)
      | some b =>
        dsimp only
        split_ifs
        · exact haug _
        · exact ih _ (haug _)

theorem augment_owned (budget : Option Int) (root : Fin n) (hp : p.Owned g) :
    (g.augment p budget root).pairing.Owned g := by
  cases g.augment_outcome p budget root with
  | flip target es js _ _ h => exact h.owned hp
  | closed _ heq _ => exact heq.symm ▸ hp
  | overdrawn _ heq _ => exact heq.symm ▸ hp

theorem augment_grows (g : Bipartite n m) (p : Pairing n m) (budget : Option Int) (root : Fin n) :
    p.Grows (g.augment p budget root).pairing := by
  cases g.augment_outcome p budget root with
  | flip target es js _ _ h => exact h.grows
  | closed _ heq _ => exact heq.symm ▸ .refl p
  | overdrawn _ heq _ => exact heq.symm ▸ .refl p

theorem improve_owned (l : List (Fin n)) (budget : Option Int) (hp : p.Owned g) :
    (g.improve l budget p).1.Owned g :=
  improve_of_augment l budget hp fun _ budget i hq _ => augment_owned budget i hq

theorem improve_grows (g : Bipartite n m) (l : List (Fin n)) (budget : Option Int)
    (p : Pairing n m) : p.Grows (g.improve l budget p).1 :=
  improve_of_augment l budget (.refl p) fun q budget i hq _ =>
    hq.trans (g.augment_grows q budget i)

theorem owned_pairAlong (g : Bipartite n m) (l : List (Fin n)) (budget : Option Int) :
    (g.pairAlong l budget).1.Owned g :=
  improve_owned l budget (g.owned_greedy l)

theorem augment_extends {budget : Option Int} {root : Fin n} (hp : p.Consistent g)
    (hroot : p.slotOf root = none) : p.Extends g (g.augment p budget root).pairing := by
  cases g.augment_outcome p budget root with
  | flip target es js _ _ h =>
    exact ⟨h.grows, h.consistent hp hroot, fun S hS => h.closed hS⟩
  | closed _ heq _ =>
    rw [heq]
    exact .refl hp
  | overdrawn _ heq _ =>
    rw [heq]
    exact .refl hp

theorem improve_extends (l : List (Fin n)) (budget : Option Int) (hp : p.Consistent g) :
    p.Extends g (g.improve l budget p).1 :=
  improve_of_augment l budget (.refl hp) fun _ _ _ hq hi =>
    hq.trans (augment_extends hq.consistent hi)

theorem consistent_pair (g : Bipartite n m) (budget : Option Int) :
    (g.pair budget).1.Consistent g :=
  (improve_extends g.order budget g.consistent_greedy).consistent

/-- A search without budget pairs its root or finds it blocked. -/
theorem blocked_of_augment {root : Fin n} (hp : p.Consistent g) (hroot : p.slotOf root = none)
    (hnone : (g.augment p none root).pairing.slotOf root = none) : p.Blocked g root := by
  cases g.augment_outcome p none root with
  | flip target es js _ _ h =>
    have hs := (h.isSome_slotOf hp hroot root).mpr (Or.inl rfl)
    rw [hnone] at hs
    cases hs
  | closed _ _ hb => exact hb
  | overdrawn _ _ hb => cases hb

theorem found_eq_false_of_blocked {root : Fin n} (hb : p.Blocked g root) :
    (g.augment p none root).found = false := by
  cases g.augment_outcome p none root with
  | flip target es js _ _ h => exact absurd h hb.not_flip
  | closed hf _ _ => exact hf
  | overdrawn hf _ _ => exact hf

theorem blocked_of_found_eq_false {root : Fin n} (hf : (g.augment p none root).found = false) :
    (g.augment p none root).pairing = p ∧ p.Blocked g root := by
  cases g.augment_outcome p none root with
  | flip target es js ht _ _ =>
    rw [hf] at ht
    cases ht
  | closed _ heq hb => exact ⟨heq, hb⟩
  | overdrawn _ _ hb => cases hb

theorem improve_cons_none (i : Fin n) (l : List (Fin n)) (p : Pairing n m) :
    (g.improve (i :: l) none p).1 = (g.improve l none (g.improve [i] none p).1).1 := by
  simp only [improve]
  split_ifs <;> rfl

theorem improve_append_none (l l' : List (Fin n)) (p : Pairing n m) :
    (g.improve (l ++ l') none p).1 = (g.improve l' none (g.improve l none p).1).1 := by
  induction l generalizing p with
  | nil => rfl
  | cons i l ih =>
    rw [List.cons_append, improve_cons_none, ih, ← improve_cons_none]

theorem improve_blocked {l : List (Fin n)} (hp : p.Consistent g) {i : Fin n} (hi : i ∈ l)
    (hnone : (g.improve l none p).1.slotOf i = none) :
    (g.improve l none p).1.Blocked g i := by
  induction l generalizing p with
  | nil => simp at hi
  | cons k l ih =>
    rw [improve_cons_none] at hnone ⊢
    have hone := improve_extends [k] none hp
    have hrest := improve_extends l none hone.consistent
    rcases List.mem_cons.mp hi with rfl | hi
    · have hnone' : (g.improve [i] none p).1.slotOf i = none := by
        by_contra hsome
        have := hrest.slotOf i (Option.ne_none_iff_isSome.mp hsome)
        rw [hnone] at this
        cases this
      have hfree : p.slotOf i = none := by
        by_contra hsome
        have := hone.slotOf i (Option.ne_none_iff_isSome.mp hsome)
        rw [hnone'] at this
        cases this
      refine hrest.blocked (hone.blocked (blocked_of_augment hp hfree ?_))
      simpa [improve, hfree] using hnone'
    · exact ih hone.consistent hi hnone

/-- The pairing after the greedy start and a search from each of the equations. -/
def searched (g : Bipartite n m) (l : List (Fin n)) : Pairing n m :=
  (g.improve l none (g.greedy g.order)).1

theorem searched_order (g : Bipartite n m) : g.searched g.order = (g.pair none).1 := rfl

theorem improve_none_snd (l : List (Fin n)) (p : Pairing n m) :
    (g.improve l none p).2 = false := by
  induction l generalizing p with
  | nil => rfl
  | cons i l ih =>
    rw [improve]
    split_ifs
    · exact ih p
    · exact ih _

/-- Without a budget no search is cut off. -/
theorem pairAlong_none_snd (g : Bipartite n m) (l : List (Fin n)) :
    (g.pairAlong l none).2 = false :=
  improve_none_snd l _

theorem pair_none_snd (g : Bipartite n m) : (g.pair none).2 = false :=
  g.pairAlong_none_snd g.order

theorem consistent_searched (g : Bipartite n m) (l : List (Fin n)) :
    (g.searched l).Consistent g :=
  (improve_extends l none g.consistent_greedy).consistent

theorem searched_append_extends (g : Bipartite n m) (l l' : List (Fin n)) :
    (g.searched l).Extends g (g.searched (l ++ l')) := by
  unfold searched
  rw [improve_append_none]
  exact improve_extends l' none (g.consistent_searched l)

/-- No search pairs an equation that is blocked. -/
theorem augment_slotOf_of_blocked {budget : Option Int} {root i : Fin n} (hp : p.Consistent g)
    (hroot : p.slotOf root = none) (hi : p.slotOf i = none) (hb : p.Blocked g i) :
    (g.augment p budget root).pairing.slotOf i = none := by
  cases g.augment_outcome p budget root with
  | flip target es js _ _ h =>
    have hne : i ≠ root := by
      rintro rfl
      exact hb.not_flip h
    have hiff := h.isSome_slotOf hp hroot i
    simpa [hne, hi] using hiff
  | closed _ heq _ => rw [heq, hi]
  | overdrawn _ heq _ => rw [heq, hi]

theorem improve_slotOf_of_blocked (l : List (Fin n)) {i : Fin n} (hp : p.Consistent g)
    (hi : p.slotOf i = none) (hb : p.Blocked g i) :
    (g.improve l none p).1.slotOf i = none := by
  induction l generalizing p with
  | nil => exact hi
  | cons k l ih =>
    rw [improve]
    by_cases hk : (p.slotOf k).isSome
    · rw [if_pos hk]
      exact ih hp hi hb
    · have hk' : p.slotOf k = none := by simpa using hk
      have hext : p.Extends g (g.augment p none k).pairing := augment_extends hp hk'
      rw [if_neg hk]
      exact ih hext.consistent (augment_slotOf_of_blocked hp hk' hi hb) (hext.blocked hb)

/-- An equation whose search fails stays unpaired, and its search would fail at any later time. -/
theorem searched_of_failed (l l' : List (Fin n)) {i : Fin n}
    (hfree : (g.searched l).slotOf i = none)
    (hfail : (g.augment (g.searched l) none i).found = false) :
    (g.searched (l ++ l')).slotOf i = none ∧
      (g.augment (g.searched (l ++ l')) none i).found = false := by
  have hb := (blocked_of_found_eq_false hfail).2
  refine ⟨?_, found_eq_false_of_blocked ((g.searched_append_extends l l').blocked hb)⟩
  unfold searched
  rw [improve_append_none]
  exact improve_slotOf_of_blocked l' (g.consistent_searched l) hfree hb

theorem slotOf_pair_none (g : Bipartite n m) (i : Fin n)
    (hnone : (g.pair none).1.slotOf i = none) : (g.pair none).1.Blocked g i :=
  improve_blocked g.consistent_greedy (g.mem_order i) hnone

end Bipartite

end Causality
