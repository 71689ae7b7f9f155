import Causality.Matching.Search
import Causality.Proofs.Matching.Pairing

/-!
# What a search finds

Along a search the frames and the path form an alternating path from the root, no slot is visited
twice, and each slot visited is taken by an equation whose candidates are visited or still to be
tried. So a search either flips an alternating path, or gives up on the budget, or leaves behind a
closed set of slots around the candidates of its root.
-/

namespace Causality.Search

open Pairing

variable {n m : Nat} {g : Bipartite n m} {p : Pairing n m} {budget : Option Int} {root : Fin n}

/-- Every candidate of the equation is visited or left to try in a frame of the equation. -/
def Explored (g : Bipartite n m) (s : Search n m) (i : Fin n) : Prop :=
  ∀ j ∈ g.candidates i, j ∈ s.visited ∨ ∃ f ∈ s.frames, f.equation = i ∧ j ∈ f.rest

structure Sound (g : Bipartite n m) (p : Pairing n m) (root : Fin n) (s : Search n m) : Prop where
  trail : s.frames = [] ∨ Trail g p root (s.frames.map (·.equation)) s.path
  rest_subset : ∀ f ∈ s.frames, ∀ j ∈ f.rest, j ∈ g.candidates f.equation
  path_subset : ∀ j ∈ s.path, j ∈ s.visited
  path_nodup : s.path.Nodup
  visited_nodup : s.visited.Nodup
  steps_eq : s.steps = s.visited.length
  owned : ∀ j ∈ s.visited, ∃ i, p.equationOf j = some i ∧ s.Explored g i
  root_explored : s.Explored g root

theorem sound_start (g : Bipartite n m) (p : Pairing n m) (root : Fin n) :
    (start g root).Sound g p root where
  trail := Or.inr .start
  rest_subset f hf j hj := by
    rw [List.mem_singleton.mp hf] at hj ⊢
    exact hj
  path_subset j hj := by simp [start] at hj
  path_nodup := List.nodup_nil
  visited_nodup := List.nodup_nil
  steps_eq := rfl
  owned j hj := by simp [start] at hj
  root_explored j hj := Or.inr ⟨_, List.mem_singleton_self _, rfl, hj⟩

inductive Outcome (g : Bipartite n m) (p : Pairing n m) (root : Fin n) (budget : Option Int)
    (a : Augmentation n m) : Prop
  | flip (target : Fin m) (es : List (Fin n)) (js : List (Fin m)) : a.found = true →
      exceeds budget a.steps = false → Flip g p root target es js a.pairing →
      Outcome g p root budget a
  | closed : a.found = false → a.pairing = p → p.Blocked g root → Outcome g p root budget a
  | overdrawn : a.found = false → a.pairing = p → exceeds budget a.steps = true →
      Outcome g p root budget a

/-! ### One step -/

variable {s t : Search n m}

/-- What is explored stays so when a frame is left or tries a slot, if the slot is visited then. -/
theorem Explored.mono {i : Fin n} (h : s.Explored g i)
    (hv : ∀ j ∈ s.visited, j ∈ t.visited)
    (hf : ∀ f ∈ s.frames, ∀ j ∈ f.rest, j ∈ t.visited ∨
      ∃ f' ∈ t.frames, f'.equation = f.equation ∧ j ∈ f'.rest) : t.Explored g i := by
  intro j hj
  rcases h j hj with hvis | ⟨f, hfm, rfl, hrest⟩
  · exact Or.inl (hv j hvis)
  · exact hf f hfm j hrest

theorem Sound.leave {i : Fin n} {outer : List (Frame n m)} (hs : s.Sound g p root)
    (hframes : s.frames = ⟨i, []⟩ :: outer) :
    Sound g p root { s with frames := outer, path := s.path.drop 1 } := by
  have hmono : ∀ k, s.Explored g k →
      Explored g { s with frames := outer, path := s.path.drop 1 } k := by
    intro k hk
    refine hk.mono (fun j hj => hj) fun f hf j hj => Or.inr ?_
    rw [hframes] at hf
    rcases List.mem_cons.mp hf with rfl | hf
    · simp at hj
    · exact ⟨f, hf, rfl, hj⟩
  have htrail := hs.trail
  rw [hframes] at htrail
  constructor
  · rcases htrail with h | h
    · cases h
    · generalize hpath : s.path = path at h ⊢
      cases outer with
      | nil => exact Or.inl rfl
      | cons f outer =>
        cases h with
        | extend h _ _ => exact Or.inr h
  · intro f hf
    exact hs.rest_subset f (hframes ▸ List.mem_cons_of_mem _ hf)
  · intro j hj
    exact hs.path_subset j (List.mem_of_mem_drop hj)
  · exact hs.path_nodup.sublist (List.drop_sublist 1 s.path)
  · exact hs.visited_nodup
  · exact hs.steps_eq
  · intro j hj
    obtain ⟨k, hk, hke⟩ := hs.owned j hj
    exact ⟨k, hk, hmono k hke⟩
  · exact hmono root hs.root_explored

theorem Sound.skip {i : Fin n} {j : Fin m} {rest : List (Fin m)} {outer : List (Frame n m)}
    (hs : s.Sound g p root) (hframes : s.frames = ⟨i, j :: rest⟩ :: outer) (hj : j ∈ s.visited) :
    Sound g p root { s with frames := ⟨i, rest⟩ :: outer } := by
  have hmono : ∀ k, s.Explored g k → Explored g { s with frames := ⟨i, rest⟩ :: outer } k := by
    intro k hk
    refine hk.mono (fun l hl => hl) fun f hf l hl => ?_
    rw [hframes] at hf
    rcases List.mem_cons.mp hf with rfl | hf
    · rcases List.mem_cons.mp hl with rfl | hl
      · exact Or.inl hj
      · exact Or.inr ⟨_, List.mem_cons_self, rfl, hl⟩
    · exact Or.inr ⟨f, List.mem_cons_of_mem _ hf, rfl, hl⟩
  have htrail := hs.trail
  rw [hframes] at htrail
  constructor
  · rcases htrail with h | h
    · cases h
    · exact Or.inr h
  · intro f hf l hl
    rcases List.mem_cons.mp hf with rfl | hf
    · exact hs.rest_subset ⟨i, j :: rest⟩ (by simp [hframes]) l (List.mem_cons_of_mem _ hl)
    · exact hs.rest_subset f (hframes ▸ List.mem_cons_of_mem _ hf) l hl
  · exact hs.path_subset
  · exact hs.path_nodup
  · exact hs.visited_nodup
  · exact hs.steps_eq
  · intro l hl
    obtain ⟨k, hk, hke⟩ := hs.owned l hl
    exact ⟨k, hk, hmono k hke⟩
  · exact hmono root hs.root_explored

/-- The next candidate of the first frame is new, and taken by `k`. -/
theorem Sound.enter {i k : Fin n} {j : Fin m} {rest : List (Fin m)} {outer : List (Frame n m)}
    (hs : s.Sound g p root) (hframes : s.frames = ⟨i, j :: rest⟩ :: outer)
    (hj : j ∉ s.visited) (hk : p.equationOf j = some k) :
    Sound g p root ⟨⟨k, g.candidates k⟩ :: ⟨i, rest⟩ :: outer, j :: s.path, j :: s.visited,
      s.steps + 1⟩ := by
  let t : Search n m := ⟨⟨k, g.candidates k⟩ :: ⟨i, rest⟩ :: outer, j :: s.path, j :: s.visited,
    s.steps + 1⟩
  have hmono : ∀ o, s.Explored g o → t.Explored g o := by
    intro o ho
    refine ho.mono (fun l hl => List.mem_cons_of_mem _ hl) fun f hf l hl => ?_
    rw [hframes] at hf
    rcases List.mem_cons.mp hf with rfl | hf
    · rcases List.mem_cons.mp hl with rfl | hl
      · exact Or.inl List.mem_cons_self
      · exact Or.inr ⟨⟨i, rest⟩, by simp [t], rfl, hl⟩
    · exact Or.inr ⟨f, by simp [t, hf], rfl, hl⟩
  have hc : j ∈ g.candidates i :=
    hs.rest_subset ⟨i, j :: rest⟩ (by simp [hframes]) j List.mem_cons_self
  have htrail := hs.trail
  rw [hframes] at htrail
  change t.Sound g p root
  constructor
  · rcases htrail with h | h
    · cases h
    · exact Or.inr (.extend h hc hk)
  · intro f hf l hl
    simp only [t, List.mem_cons] at hf
    rcases hf with rfl | rfl | hf
    · exact hl
    · exact hs.rest_subset ⟨i, j :: rest⟩ (by simp [hframes]) l (List.mem_cons_of_mem _ hl)
    · exact hs.rest_subset f (hframes ▸ List.mem_cons_of_mem _ hf) l hl
  · intro l hl
    rcases List.mem_cons.mp hl with rfl | hl
    · exact List.mem_cons_self
    · exact List.mem_cons_of_mem _ (hs.path_subset l hl)
  · exact List.nodup_cons.mpr ⟨fun h => hj (hs.path_subset j h), hs.path_nodup⟩
  · exact List.nodup_cons.mpr ⟨hj, hs.visited_nodup⟩
  · simp [t, hs.steps_eq]
  · intro l hl
    rcases List.mem_cons.mp hl with rfl | hl
    · exact ⟨k, hk, fun c hc => Or.inr ⟨⟨k, g.candidates k⟩, by simp [t], rfl, hc⟩⟩
    · obtain ⟨o, ho, hoe⟩ := hs.owned l hl
      exact ⟨o, ho, hmono o hoe⟩
  · exact hmono root hs.root_explored

/-- With no frame left the visited slots are closed. -/
theorem Sound.blocked (hs : s.Sound g p root) (hframes : s.frames = []) : p.Blocked g root := by
  have hexplored : ∀ i, s.Explored g i → ∀ j ∈ g.candidates i, j ∈ s.visited := by
    intro i hi j hj
    rcases hi j hj with hj | ⟨f, hf, _⟩
    · exact hj
    · simp [hframes] at hf
  refine ⟨{j | j ∈ s.visited}, ?_, hexplored root hs.root_explored⟩
  intro j hj
  obtain ⟨i, hi, hie⟩ := hs.owned j hj
  exact ⟨i, hi, hexplored i hie⟩

theorem Sound.step (hs : s.Sound g p root) :
    (∀ a, s.step g p budget = .inl a → Outcome g p root budget a) ∧
      ∀ t, s.step g p budget = .inr t → t.Sound g p root := by
  unfold Search.step
  split
  · next hframes =>
    refine ⟨fun a ha => ?_, fun t ht => by cases ht⟩
    obtain rfl := Sum.inl.inj ha
    exact .closed rfl rfl (hs.blocked hframes)
  · next i outer hframes =>
    refine ⟨fun a ha => (by cases ha), fun t ht => ?_⟩
    obtain rfl := Sum.inr.inj ht
    exact hs.leave hframes
  · next i j rest outer hframes =>
    by_cases hj : j ∈ s.visited
    · rw [if_pos hj]
      refine ⟨fun a ha => (by cases ha), fun t ht => ?_⟩
      obtain rfl := Sum.inr.inj ht
      exact hs.skip hframes hj
    · rw [if_neg hj]
      cases hb : exceeds budget (s.steps + 1) with
      | true =>
        refine ⟨fun a ha => ?_, fun t ht => by cases ht⟩
        obtain rfl := Sum.inl.inj ha
        exact .overdrawn rfl rfl hb
      | false =>
        rw [if_neg Bool.false_ne_true]
        split
        · next hfree =>
          refine ⟨fun a ha => ?_, fun t ht => by cases ht⟩
          obtain rfl := Sum.inl.inj ha
          have htrail := hs.trail
          rw [hframes] at htrail
          rcases htrail with h | h
          · cases h
          · have hc : j ∈ g.candidates i :=
              hs.rest_subset ⟨i, j :: rest⟩ (by simp [hframes]) j List.mem_cons_self
            refine .flip j _ s.path rfl hb ⟨h, hs.path_nodup, ?_, hfree, rfl⟩
            intro o ho
            rw [List.map_cons, List.head?_cons, Option.mem_some_iff] at ho
            exact ho ▸ hc
        · next k hk =>
          refine ⟨fun a ha => (by cases ha), fun t ht => ?_⟩
          obtain rfl := Sum.inr.inj ht
          exact hs.enter hframes hj hk

/-! ### The whole search -/

theorem Sound.run (hs : s.Sound g p root) : Outcome g p root budget (s.run g p budget) := by
  induction s using Search.run.induct g p budget with
  | case1 s a ha =>
    rw [Search.run, ha]
    exact hs.step.1 a ha
  | case2 s t ht ih =>
    rw [Search.run, ht]
    exact ih (hs.step.2 t ht)

end Causality.Search

namespace Causality.Bipartite

variable {n m : Nat}

theorem augment_outcome (g : Bipartite n m) (p : Pairing n m) (budget : Option Int)
    (root : Fin n) : Search.Outcome g p root budget (g.augment p budget root) :=
  (Search.sound_start g p root).run

end Causality.Bipartite
