import Causality.Proofs.Matching.Budget
import Mathlib.Logic.Relation

/-!
# Searches without a budget

Such a search passes from state to state until it has an answer. The frames and the path of every
state that it passes are an alternating path from the root, and the visited slots only grow, by
slots that were not among them. What is found is flipped, and nothing is missed: when the frames
run out, the visited slots are a closed set, which no path to a free slot leaves.
-/

namespace Causality

namespace Pairing

variable {n m : Nat} {g : Bipartite n m} {p : Pairing n m} {root : Fin n}

/-- An alternating path from the root that repeats no slot and goes on to a free slot: its
equations and the slots between them, the last ones first. -/
structure Augmenting (g : Bipartite n m) (p : Pairing n m) (root : Fin n) (target : Fin m)
    (es : List (Fin n)) (js : List (Fin m)) : Prop where
  trail : Trail g p root es js
  nodup : js.Nodup
  edge : ∀ i ∈ es.head?, target ∈ g.candidates i
  free : p.equationOf target = none

def HasAugmenting (g : Bipartite n m) (p : Pairing n m) (root : Fin n) : Prop :=
  ∃ target es js, Augmenting g p root target es js

variable {target : Fin m} {es : List (Fin n)} {js : List (Fin m)} {q : Pairing n m}

theorem Augmenting.flip (h : Augmenting g p root target es js) :
    Flip g p root target es js (p.assignAll (es.zip (target :: js))) :=
  ⟨h.trail, h.nodup, h.edge, h.free, rfl⟩

theorem Flip.augmenting (h : Flip g p root target es js q) :
    Augmenting g p root target es js :=
  ⟨h.trail, h.nodup, h.edge, h.free⟩

/-- Counted from the root, a slot of the path lies between the equation of its place and the next
one, which owns it. -/
theorem Trail.link (ht : Trail g p root es js) {k : Nat} {j : Fin m}
    (hj : js.reverse[k]? = some j) : ∃ i o, es.reverse[k]? = some i ∧
      es.reverse[k + 1]? = some o ∧ j ∈ g.candidates i ∧ p.equationOf j = some o := by
  induction ht with
  | start => simp at hj
  | @extend i es js l o ht hl ho ih =>
    have hlength : es.length = js.length := by simpa using ht.length_eq
    simp only [List.reverse_cons, List.append_assoc] at hj ih ⊢
    rcases Nat.lt_trichotomy k js.length with hk | rfl | hk
    · rw [List.getElem?_append_left (by simpa using hk)] at hj
      obtain ⟨i', o', hi', ho', hlink⟩ := ih hj
      refine ⟨i', o', ?_, ?_, hlink⟩
      · rw [← List.append_assoc, List.getElem?_append_left (by simp; omega), hi']
      · rw [← List.append_assoc, List.getElem?_append_left (by simp; omega), ho']
    · have hlj : l = j := by simpa using hj
      exact ⟨i, o, by simp [← hlength], by simp [← hlength], hlj ▸ hl, hlj ▸ ho⟩
    · rw [List.getElem?_eq_none (by simp; omega)] at hj
      cases hj

theorem Trail.getElem?_zero (ht : Trail g p root es js) : es.reverse[0]? = some root := by
  induction ht with
  | start => rfl
  | extend ht _ _ ih =>
    rw [List.reverse_cons, List.getElem?_append_left (by simp), ih]

end Pairing

namespace Search

open Pairing

variable {n m : Nat} {g : Bipartite n m} {p : Pairing n m} {root : Fin n} {s t : Search n m}

/-! ### The states of a search -/

/-- The search without a budget passes from `s` to `t`. -/
def Reaches (g : Bipartite n m) (p : Pairing n m) : Search n m → Search n m → Prop :=
  Relation.ReflTransGen fun s t => s.step g p none = .inr t

/-- Each slot of the path, counted from the root, is a candidate of the frame of its place and is
owned by the next frame. -/
structure Linked (g : Bipartite n m) (p : Pairing n m) (root : Fin n) (s : Search n m) : Prop where
  length_eq : s.frames.length = s.path.length + 1
  first : ∃ f, s.frames.reverse[0]? = some f ∧ f.equation = root
  link : ∀ k j, s.path.reverse[k]? = some j → ∃ f f', s.frames.reverse[k]? = some f ∧
    s.frames.reverse[k + 1]? = some f' ∧ j ∈ g.candidates f.equation ∧
    p.equationOf j = some f'.equation

theorem Sound.linked (hs : s.Sound g p root) (hframes : s.frames ≠ []) : s.Linked g p root := by
  have htrail := hs.trail.resolve_left hframes
  have hframe : ∀ {k : Nat} {i : Fin n}, (s.frames.map (·.equation)).reverse[k]? = some i →
      ∃ f, s.frames.reverse[k]? = some f ∧ f.equation = i := by
    intro k i hi
    rw [← List.map_reverse, List.getElem?_map, Option.map_eq_some_iff] at hi
    exact hi
  constructor
  · simpa using htrail.length_eq
  · exact hframe htrail.getElem?_zero
  · intro k j hj
    obtain ⟨i, o, hi, ho, hc, howner⟩ := htrail.link hj
    obtain ⟨f, hf, rfl⟩ := hframe hi
    obtain ⟨f', hf', rfl⟩ := hframe ho
    exact ⟨f, f', hf, hf', hc, howner⟩

theorem Reaches.sound (h : Reaches g p s t) (hs : s.Sound g p root) : t.Sound g p root := by
  induction h with
  | refl => exact hs
  | tail _ hstep ih => exact ih.step.2 _ hstep

/-- The visited slots stay, and a new one comes before them. -/
theorem visited_suffix_of_step (h : s.step g p none = .inr t) : s.visited <:+ t.visited := by
  unfold Search.step at h
  split at h
  · cases h
  · obtain rfl := Sum.inr.inj h
    exact List.suffix_refl _
  · split_ifs at h with hvisited hover
    · obtain rfl := Sum.inr.inj h
      exact List.suffix_refl _
    · split at h
      · cases h
      · obtain rfl := Sum.inr.inj h
        exact List.suffix_cons _ _

/-- The answer counts the visited slots, together with the free one if there is one. -/
theorem Sound.visited_of_inl (hs : s.Sound g p root) {a : Augmentation n m}
    (h : s.step g p none = .inl a) :
    ∃ visited : List (Fin m), visited.Nodup ∧ a.steps = visited.length ∧
      s.visited <:+ visited := by
  unfold Search.step at h
  split at h
  · obtain rfl := Sum.inl.inj h
    exact ⟨s.visited, hs.visited_nodup, hs.steps_eq, List.suffix_refl _⟩
  · cases h
  · next i j rest outer hframes =>
    split_ifs at h with hvisited hover
    · cases hover
    · split at h
      · obtain rfl := Sum.inl.inj h
        exact ⟨j :: s.visited, List.nodup_cons.mpr ⟨hvisited, hs.visited_nodup⟩,
          congrArg (· + 1) hs.steps_eq, List.suffix_cons _ _⟩
      · cases h

/-! ### The whole search -/

/-- The search passes to a state in which it has its answer. -/
theorem exists_last (g : Bipartite n m) (p : Pairing n m) (s : Search n m) :
    ∃ last, Reaches g p s last ∧ last.step g p none = .inl (s.run g p none) := by
  induction s using run.induct g p none with
  | case1 s a ha => exact ⟨s, .refl, by rw [run_of_inl ha, ha]⟩
  | case2 s t ht ih =>
    obtain ⟨last, hreach, hlast⟩ := ih
    exact ⟨last, .head ht hreach, by rw [run_of_inr ht, hlast]⟩

/-- The slots that are visited in the end, in one list without duplicates. -/
theorem Sound.exists_visited (hs : s.Sound g p root) :
    ∃ visited : List (Fin m), visited.Nodup ∧ (s.run g p none).steps = visited.length ∧
      ∀ t, Reaches g p s t → t.visited <:+ visited := by
  induction s using run.induct g p none with
  | case1 s a ha =>
    obtain ⟨visited, hnodup, hsteps, hsuffix⟩ := hs.visited_of_inl ha
    refine ⟨visited, hnodup, by rw [run_of_inl ha, hsteps], fun t ht => ?_⟩
    rcases ht.cases_head with rfl | ⟨u, hu, _⟩
    · exact hsuffix
    · rw [ha] at hu
      cases hu
  | case2 s t ht ih =>
    obtain ⟨visited, hnodup, hsteps, hsuffix⟩ := ih (hs.step.2 t ht)
    refine ⟨visited, hnodup, by rw [run_of_inr ht, hsteps], fun u hu => ?_⟩
    rcases hu.cases_head with rfl | ⟨t', ht', hu⟩
    · exact (visited_suffix_of_step ht).trans (hsuffix t .refl)
    · rw [ht] at ht'
      exact hsuffix u (Sum.inr.inj ht' ▸ hu)

end Search

namespace Bipartite

open Pairing

variable {n m : Nat} {g : Bipartite n m} {p : Pairing n m} {root : Fin n}

theorem found_iff_hasAugmenting :
    (g.augment p none root).found = true ↔ HasAugmenting g p root := by
  constructor
  · intro hfound
    cases g.augment_outcome p none root with
    | flip target es js _ _ h => exact ⟨target, es, js, h.augmenting⟩
    | closed hf _ _ => rw [hf] at hfound; cases hfound
    | overdrawn hf _ _ => rw [hf] at hfound; cases hfound
  · rintro ⟨target, es, js, h⟩
    by_contra hf
    exact (blocked_of_found_eq_false (Bool.not_eq_true _ ▸ hf)).2.not_flip h.flip

/-- A search that finds a path pairs the root and one more slot, and no equation and no slot
loses its partner. -/
theorem augment_of_found (hp : p.Consistent g) (hroot : p.slotOf root = none)
    (hfound : (g.augment p none root).found = true) :
    (g.augment p none root).pairing.Consistent g ∧
      (∀ i, ((g.augment p none root).pairing.slotOf i).isSome ↔ i = root ∨ (p.slotOf i).isSome) ∧
      ∃ target, p.equationOf target = none ∧
        ∀ j, ((g.augment p none root).pairing.equationOf j).isSome ↔
          j = target ∨ (p.equationOf j).isSome := by
  cases g.augment_outcome p none root with
  | flip target es js _ _ h =>
    exact ⟨h.consistent hp hroot, h.isSome_slotOf hp hroot, target, h.free, h.isSome_equationOf⟩
  | closed hf _ _ => rw [hf] at hfound; cases hfound
  | overdrawn hf _ _ => rw [hf] at hfound; cases hfound

/-- A search without a budget comes to an end after visiting no slot twice. Along the way the path
leads from each frame to the next. It finds an alternating path to a free slot exactly if there is
one; then the root and one more slot are paired in addition to what was paired, and otherwise the
pairing stays as it is. -/
theorem augment_is_complete (g : Bipartite n m) (p : Pairing n m) (root : Fin n)
    (hp : p.Consistent g) (hroot : p.slotOf root = none) :
    let start := Search.start g root
    let a := g.augment p none root
    (∃ last, Search.Reaches g p start last ∧ last.step g p none = .inl a) ∧
      (∃ visited : List (Fin m), visited.Nodup ∧ a.steps = visited.length ∧
        ∀ s, Search.Reaches g p start s → s.visited <:+ visited) ∧
      (∀ s, Search.Reaches g p start s → s.frames ≠ [] → s.Linked g p root) ∧
      (a.found = true ↔ HasAugmenting g p root) ∧
      (a.found = true → a.pairing.Consistent g ∧
        (∀ i, (a.pairing.slotOf i).isSome ↔ i = root ∨ (p.slotOf i).isSome) ∧
        ∃ target, p.equationOf target = none ∧
          ∀ j, (a.pairing.equationOf j).isSome ↔ j = target ∨ (p.equationOf j).isSome) ∧
      (a.found = false → a.pairing = p) := by
  have hstart := Search.sound_start g p root
  refine ⟨Search.exists_last g p _, hstart.exists_visited, ?_, found_iff_hasAugmenting,
    augment_of_found hp hroot, fun hf => (blocked_of_found_eq_false hf).1⟩
  intro s hs hframes
  exact (hs.sound hstart).linked hframes

/-- A search that has to leave a frame before it finds its path. -/
def detour : Bipartite 3 3 where
  candidates i := if i = 0 then [0, 1] else if i = 1 then [0] else [0, 1, 2]
  position i := i

def detourPairing : Pairing 3 3 := Pairing.empty.assignAll [(1, 0), (2, 1)]

theorem detour_augments :
    (detourPairing.Consistent detour ∧ detourPairing.slotOf 0 = none) ∧
      (detour.augment detourPairing none 0).found = true ∧
      (detour.augment detourPairing none 0).steps = 3 ∧
      (∃ visited : List (Fin 3), visited.Nodup ∧ visited.length = 3) ∧
      (detour.augment detourPairing none 0).pairing.Consistent detour := by
  have hp : detourPairing.Consistent detour := by
    constructor <;> decide
  have hroot : detourPairing.slotOf 0 = none := rfl
  have hsteps : (detour.augment detourPairing none 0).steps = 3 := by cbv
  obtain ⟨_, ⟨visited, hnodup, hvisited, _⟩, _, hfound, hconsistent, _⟩ :=
    augment_is_complete detour detourPairing 0 hp hroot
  have hpath : Pairing.Augmenting detour detourPairing 0 2 [2, 0] [1] :=
    ⟨.extend .start (by decide) rfl, by decide, by decide, rfl⟩
  have h := hfound.mpr ⟨_, _, _, hpath⟩
  exact ⟨⟨hp, hroot⟩, h, hsteps, ⟨visited, hnodup, hvisited ▸ hsteps⟩, (hconsistent h).1⟩

end Bipartite

end Causality
