import Causality.Proofs.Digraph.Exploration

/-!
# Strongly connected components

A visit pushes vertices that reach the visited one, and the lowest height it returns is that of an
open vertex which it reaches. If no open vertex below is reached, the vertex and what lies above it
are a component. So the exploration closes complete components, each after those it reaches.
-/

namespace Causality

variable {α : Type} [DecidableEq α] {g : Digraph α} {s t : Exploration α} {u v w : α}
  {pushed above : List α} {low : Nat}

namespace Exploration

/-- What the exploration has become during the visit of `v`: the vertices pushed reach `v`, and
nothing is seen that `v` does not reach. -/
structure Grown (g : Digraph α) (s : Exploration α) (v : α) (pushed : List α)
    (t : Exploration α) : Prop where
  sound : Sound g t
  stack : t.stack = pushed ++ s.stack
  keeps : s.components.flatten ⊆ t.components.flatten
  reached : ∀ w, t.isSeen w = true → s.isSeen w = true ∨ g.Reaches v w
  back : ∀ u ∈ pushed, g.Reaches u v

/-- An edge to `w` has been followed, in a visit that started at `s`. -/
def Noted (s t : Exploration α) (low : Nat) (w : α) : Prop :=
  t.isSeen w = true ∧ (w ∈ s.stack → low ≤ s.height w)

/-- The lowest height reached, or the one above the stack if nothing open is reached. -/
def Attained (g : Digraph α) (s : Exploration α) (v : α) (low : Nat) : Prop :=
  low = s.stack.length + 1 ∨ ∃ w ∈ s.stack, s.height w = low ∧ g.Reaches v w

/-- The state within the visit of `v`, with the vertices above it. -/
structure Following (g : Digraph α) (s : Exploration α) (v : α) (above : List α) (low : Nat)
    (t : Exploration α) : Prop where
  grown : Grown g s v (above ++ [v]) t
  noted : ∀ u ∈ above, ∀ w, g.Edge u w → Noted s t low w
  attained : Attained g s v low

structure Visited (g : Digraph α) (s : Exploration α) (v : α) (pushed : List α) (low : Nat)
    (t : Exploration α) : Prop where
  grown : Grown g s v pushed t
  seen : t.isSeen v = true
  noted : ∀ u ∈ pushed, ∀ w, g.Edge u w → Noted s t low w
  attained : Attained g s v low
  lower : pushed ≠ [] → low ≤ s.stack.length

theorem Attained.le (h : Attained g s v low) : low ≤ s.stack.length + 1 := by
  rcases h with rfl | ⟨w, _, rfl, _⟩
  · exact le_rfl
  · exact height_le.trans (Nat.le_succ _)

theorem Attained.exists (h : Attained g s v low) (hl : low ≤ s.stack.length) :
    ∃ w ∈ s.stack, s.height w = low ∧ g.Reaches v w :=
  h.resolve_left (by omega)

theorem Grown.isSeen (h : Grown g s v pushed t) (hw : s.isSeen w = true) : t.isSeen w = true := by
  rw [isSeen_iff] at hw ⊢
  rcases hw with hw | hw
  · rw [h.stack]
    exact .inl (List.mem_append_right _ hw)
  · exact .inr (h.keeps hw)

theorem Following.stack (h : Following g s v above low t) :
    t.stack = above ++ v :: s.stack := by
  simpa using h.grown.stack

theorem Following.mem_stack (h : Following g s v above low t) (hw : w ∈ s.stack) :
    w ∈ t.stack := by
  rw [h.stack]
  exact List.mem_append_right _ (List.mem_cons_of_mem _ hw)

theorem Following.height_eq (h : Following g s v above low t) (hw : w ∈ s.stack) :
    t.height w = s.height w :=
  height_of_mem_below h.grown.stack h.grown.sound.nodup_stack hw

/-- An open vertex is one that was open at the start, or its height is no less than that of `v`. -/
theorem Following.mem_or_lt (h : Following g s v above low t) (hw : w ∈ t.stack) :
    w ∈ s.stack ∨ s.stack.length < t.height w := by
  rw [h.grown.stack, List.mem_append] at hw
  rcases hw with hw | hw
  · exact .inr (lt_height_of_mem_above h.grown.stack hw)
  · exact .inl hw

theorem Following.reaches (h : Following g s v above low t) (hs : ∀ u ∈ s.stack, g.Reaches u v)
    (hu : u ∈ t.stack) : g.Reaches u v := by
  rw [h.grown.stack, List.mem_append] at hu
  rcases hu with hu | hu
  · exact h.grown.back u hu
  · exact hs u hu

theorem Following.start (h : Sound g s) (hv : ¬ s.isSeen v = true) :
    Following g s v [] (s.stack.length + 1) (s.push v) where
  grown :=
    { sound := h.push hv
      stack := rfl
      keeps := List.Subset.refl _
      reached := by
        intro w hw
        rcases isSeen_push.mp hw with rfl | hw
        · exact .inr .refl
        · exact .inl hw
      back := by
        intro u hu
        obtain rfl := List.mem_singleton.mp hu
        exact .refl }
  noted := by simp
  attained := .inl rfl

/-! ### Following an edge -/

theorem Following.open (h : Following g s v above low t) (he : g.Edge v w) (hw : w ∈ t.stack) :
    Following g s v above (min low (t.height w)) t where
  grown := h.grown
  noted u hu x hx := by
    obtain ⟨hseen, hlow⟩ := h.noted u hu x hx
    exact ⟨hseen, fun hxs => (Nat.min_le_left _ _).trans (hlow hxs)⟩
  attained := by
    rcases h.mem_or_lt hw with hws | hlt
    · rw [h.height_eq hws]
      rcases Nat.le_total low (s.height w) with hle | hle
      · rw [Nat.min_eq_left hle]
        exact h.attained
      · rw [Nat.min_eq_right hle]
        exact .inr ⟨w, hws, rfl, he.reaches⟩
    · rw [Nat.min_eq_left (h.attained.le.trans hlt)]
      exact h.attained

theorem Following.enter {below : List α} {l : Nat} {r : Exploration α}
    (h : Following g s v above low t) (hs : ∀ u ∈ s.stack, g.Reaches u v) (he : g.Edge v w)
    (hr : Visited g t w below l r) : Following g s v (below ++ above) (min low l) r where
  grown :=
    { sound := hr.grown.sound
      stack := by rw [hr.grown.stack, h.grown.stack, List.append_assoc, List.append_assoc,
        List.append_assoc]
      keeps := List.Subset.trans h.grown.keeps hr.grown.keeps
      reached := by
        intro x hx
        rcases hr.grown.reached x hx with hx | hx
        · exact h.grown.reached x hx
        · exact .inr (he.reaches.trans hx)
      back := by
        intro u hu
        rw [List.append_assoc, List.mem_append] at hu
        rcases hu with hu | hu
        · obtain ⟨x, hx, _, hwx⟩ := hr.attained.exists (hr.lower (List.ne_nil_of_mem hu))
          exact (hr.grown.back u hu).trans (hwx.trans (h.reaches hs hx))
        · exact h.grown.back u hu }
  noted u hu x hx := by
    rcases List.mem_append.mp hu with hu | hu
    · obtain ⟨hseen, hlow⟩ := hr.noted u hu x hx
      refine ⟨hseen, fun hxs => ?_⟩
      rw [← h.height_eq hxs]
      exact (Nat.min_le_right _ _).trans (hlow (h.mem_stack hxs))
    · obtain ⟨hseen, hlow⟩ := h.noted u hu x hx
      exact ⟨hr.grown.isSeen hseen, fun hxs => (Nat.min_le_left _ _).trans (hlow hxs)⟩
  attained := by
    rcases Nat.le_total low l with hle | hle
    · rw [Nat.min_eq_left hle]
      exact h.attained
    rw [Nat.min_eq_right hle]
    rcases hr.attained with rfl | ⟨x, hx, rfl, hwx⟩
    · have hlen : t.stack.length = (above ++ [v]).length + s.stack.length := by
        rw [h.grown.stack, List.length_append]
      have hle' := h.attained.le
      rw [List.length_append, List.length_singleton] at hlen
      omega
    · rcases h.mem_or_lt hx with hxs | hlt
      · exact .inr ⟨x, hxs, (h.height_eq hxs).symm, he.reaches.trans hwx⟩
      · rw [Nat.le_antisymm hle (h.attained.le.trans hlt)]
        exact h.attained

def unseen (vertices : Finset α) (s : Exploration α) : Finset α :=
  vertices.filter fun w => ¬ s.isSeen w = true

theorem unseen_subset {vertices : Finset α} (h : ∀ w, s.isSeen w = true → t.isSeen w = true) :
    unseen vertices t ⊆ unseen vertices s :=
  Finset.monotone_filter_right _ fun w _ hw hs => hw (h w hs)

theorem card_unseen_push {vertices : Finset α} (hv : ¬ s.isSeen v = true)
    (hmem : v ∈ vertices) : (unseen vertices (s.push v)).card < (unseen vertices s).card := by
  refine Finset.card_lt_card (Finset.ssubset_iff_of_subset ?_ |>.mpr ⟨v, ?_, ?_⟩)
  · exact unseen_subset fun w hw => isSeen_push.mpr (.inr hw)
  · simpa [unseen, hmem] using hv
  · simp [unseen, isSeen_push]

/-- The visit does what it should where at most `depth` vertices were not seen. -/
def Visits (g : Digraph α) (vertices : Finset α) (depth : Nat)
    (visit : α → Exploration α → Nat × Exploration α) : Prop :=
  ∀ v s, Sound g s → ¬ s.isSeen v = true → v ∈ vertices → (∀ u ∈ s.stack, g.Reaches u v) →
    (unseen vertices s).card ≤ depth → ∃ pushed, Visited g s v pushed (visit v s).1 (visit v s).2

variable {vertices : Finset α} {depth : Nat} {visit : α → Exploration α → Nat × Exploration α}

/-- The next edge is noted, and what was noted stays so. -/
theorem Following.follow (h : Following g s v above low t) (hvisit : Visits g vertices depth visit)
    (hs : ∀ u ∈ s.stack, g.Reaches u v) (he : g.Edge v w) (hw : w ∈ vertices)
    (hdepth : (unseen vertices t).card ≤ depth) :
    ∃ below low' r, Exploration.follow visit (low, t) w = (low', r) ∧
      Following g s v (below ++ above) low' r ∧ Noted s r low' w ∧
      (unseen vertices r).card ≤ depth ∧ ∀ x, Noted s t low x → Noted s r low' x := by
  by_cases hopen : w ∈ t.stack
  · refine ⟨[], min low (t.height w), t, follow_of_open hopen, h.open he hopen, ?_, hdepth, ?_⟩
    · refine ⟨isSeen_iff.mpr (.inl hopen), fun hws => ?_⟩
      rw [h.height_eq hws]
      exact Nat.min_le_right _ _
    · rintro x ⟨hseen, hlow⟩
      exact ⟨hseen, fun hxs => (Nat.min_le_left _ _).trans (hlow hxs)⟩
  by_cases hclosed : w ∈ t.components.flatten
  · have hseen : t.isSeen w = true := isSeen_iff.mpr (.inr hclosed)
    refine ⟨[], low, t, follow_of_closed hopen hseen, h, ?_, hdepth, fun x hx => hx⟩
    exact ⟨hseen, fun hws => absurd (h.mem_stack hws) hopen⟩
  have hunseen : ¬ t.isSeen w = true := by simp [isSeen_iff, hopen, hclosed]
  obtain ⟨below, hr⟩ := hvisit w t h.grown.sound hunseen hw
    (fun u hu => (h.reaches hs hu).trans he.reaches) hdepth
  refine ⟨below, min low (visit w t).1, (visit w t).2, follow_of_unseen hunseen,
    h.enter hs he hr, ?_, ?_, ?_⟩
  · exact ⟨hr.seen, fun hws => absurd (h.mem_stack hws) hopen⟩
  · exact (Finset.card_le_card (unseen_subset fun x hx => hr.grown.isSeen hx)).trans hdepth
  · rintro x ⟨hseen, hlow⟩
    exact ⟨hr.grown.isSeen hseen, fun hxs => (Nat.min_le_left _ _).trans (hlow hxs)⟩

theorem Following.foldl (hvisit : Visits g vertices depth visit)
    (hs : ∀ u ∈ s.stack, g.Reaches u v) {ws : List α} (he : ∀ w ∈ ws, g.Edge v w)
    (hws : ∀ w ∈ ws, w ∈ vertices) (h : Following g s v above low t)
    (hdepth : (unseen vertices t).card ≤ depth) :
    ∃ above' low' r, ws.foldl (Exploration.follow visit) (low, t) = (low', r) ∧
      Following g s v above' low' r ∧ (∀ w ∈ ws, Noted s r low' w) ∧
      ∀ x, Noted s t low x → Noted s r low' x := by
  induction ws generalizing above low t with
  | nil => exact ⟨above, low, t, rfl, h, by simp, fun x hx => hx⟩
  | cons w ws ih =>
    rw [List.forall_mem_cons] at he hws
    obtain ⟨below, low', r, hfollow, hr, hw, hdepth', hkeep⟩ :=
      h.follow hvisit hs he.1 hws.1 hdepth
    obtain ⟨above', low'', r', hfold, hr', hall, hkeep'⟩ := ih he.2 hws.2 hr hdepth'
    refine ⟨above', low'', r', ?_, hr', ?_, fun x hx => hkeep' x (hkeep x hx)⟩
    · rw [List.foldl_cons, hfollow, hfold]
    · exact List.forall_mem_cons.mpr ⟨hkeep' w hw, hall⟩

/-! ### Leaving a vertex -/

/-- Every edge of `v` was followed, and something below is reached. -/
theorem Following.leave (h : Following g s v above low t) (he : ∀ w, g.Edge v w → Noted s t low w)
    (hlow : low ≠ s.stack.length + 1) : Visited g s v (above ++ [v]) low t where
  grown := h.grown
  seen := isSeen_iff.mpr (.inl (by simp [h.stack]))
  noted u hu := by
    rcases List.mem_append.mp hu with hu | hu
    · exact h.noted u hu
    · obtain rfl := List.mem_singleton.mp hu
      exact he
  attained := h.attained
  lower _ := by
    have hle := h.attained.le
    omega

/-- Every edge of `v` was followed, and nothing below is reached. -/
theorem Following.close (h : Following g s v above low t) (hv : ¬ s.isSeen v = true)
    (he : ∀ w, g.Edge v w → Noted s t low w) (hlow : low = s.stack.length + 1) :
    Visited g s v [] low (t.close v) := by
  have hnoted : ∀ u ∈ above ++ [v], ∀ w, g.Edge u w → Noted s t low w := by
    intro u hu
    rcases List.mem_append.mp hu with hu | hu
    · exact h.noted u hu
    · obtain rfl := List.mem_singleton.mp hu
      exact he
  have hopen : ∀ u ∈ above ++ [v], u ∈ t.stack := by
    intro u hu
    rw [h.grown.stack]
    exact List.mem_append_left _ hu
  have hto : ∀ u ∈ above ++ [v], g.Reaches v u := by
    intro u hu
    refine (h.grown.reached u (isSeen_iff.mpr (.inl (hopen u hu)))).resolve_left fun hseen => ?_
    rcases isSeen_iff.mp hseen with hus | hus
    · have hn := h.grown.sound.nodup_stack
      rw [h.grown.stack] at hn
      exact (List.nodup_append.mp hn).2.2 u hu u hus rfl
    · exact h.grown.sound.notMem_closed (hopen u hu) (h.grown.keeps hus)
  have hout : ∀ u ∈ above ++ [v], ∀ w, g.Edge u w →
      w ∈ above ++ [v] ∨ w ∈ t.components.flatten := by
    intro u hu w huw
    obtain ⟨hseen, hle⟩ := hnoted u hu w huw
    refine (isSeen_iff.mp hseen).imp_left fun hw => ?_
    rw [h.grown.stack, List.mem_append] at hw
    refine hw.resolve_right fun hws => ?_
    have hheight : s.height w ≤ s.stack.length := height_le
    have := hle hws
    omega
  have hstack := h.grown.sound.stack_close h.stack
  have hcomponents := h.grown.sound.components_close h.stack
  have hsound := h.grown.sound.close h.stack hto h.grown.back hout
  have hflatten : (t.close v).components.flatten = t.components.flatten ++ (above ++ [v]) := by
    simp [hcomponents]
  refine ⟨⟨hsound, hstack, ?_, ?_, by simp⟩, ?_, by simp, .inl hlow, by simp⟩
  · rw [hflatten]
    exact List.subset_append_of_subset_left _ h.grown.keeps
  · intro w hw
    rw [isSeen_iff, hstack, hflatten, List.mem_append] at hw
    rcases hw with hw | hw | hw
    · exact .inl (isSeen_iff.mpr (.inl hw))
    · exact h.grown.reached w (isSeen_iff.mpr (.inr hw))
    · exact .inr (hto w hw)
  · rw [isSeen_iff, hflatten]
    simp

theorem visits (g : Digraph α) (vertices : Finset α)
    (hedge : ∀ v ∈ vertices, ∀ w, g.Edge v w → w ∈ vertices) (depth : Nat) :
    Visits g vertices depth (g.visit depth) := by
  induction depth with
  | zero =>
    intro v s _ hv hmem _ hdepth
    have hin : v ∈ unseen vertices s := by simpa [unseen, hmem] using hv
    exact absurd (Finset.card_pos.mpr ⟨v, hin⟩) (by omega)
  | succ depth ih =>
    intro v s hsound hv hmem hs hdepth
    have hpush := card_unseen_push hv hmem
    obtain ⟨above, low, t, hfold, hfollowing, hall, _⟩ :=
      (Following.start hsound hv).foldl ih hs (show ∀ w ∈ g.successors v, g.Edge v w from
        fun _ hw => hw) (hedge v hmem) (by omega)
    by_cases hlow : low = s.stack.length + 1
    · have hvisit : g.visit (depth + 1) v s = (low, t.close v) := by
        simp [Digraph.visit, hfold, hlow]
      rw [hvisit]
      exact ⟨[], hfollowing.close hv hall hlow⟩
    · have hvisit : g.visit (depth + 1) v s = (low, t) := by
        simp [Digraph.visit, hfold, hlow]
      rw [hvisit]
      exact ⟨above ++ [v], hfollowing.leave hall hlow⟩

end Exploration

namespace Digraph

open Exploration

/-- The components of what the roots reach, each after those that it reaches. -/
structure AreComponents (g : Digraph α) (roots : List α) (cs : List (List α)) : Prop where
  nodup : cs.flatten.Nodup
  nonempty : [] ∉ cs
  mem_iff : ∀ v, v ∈ cs.flatten ↔ ∃ r ∈ roots, g.Reaches r v
  connected : ∀ c ∈ cs, ∀ u ∈ c, ∀ v, v ∈ c ↔ g.Reaches u v ∧ g.Reaches v u
  forward : cs.Pairwise fun c d => ∀ u ∈ c, ∀ v ∈ d, ¬ g.Edge u v

/-- Between two roots everything that was seen is closed. -/
structure Explored (g : Digraph α) (roots : List α) (s : Exploration α) : Prop where
  sound : Sound g s
  stack : s.stack = []
  mem_iff : ∀ v, v ∈ s.components.flatten ↔ ∃ r ∈ roots, g.Reaches r v

variable {roots : List α} {r : α} {vertices : Finset α} {depth : Nat}

theorem Explored.seen_iff (h : Explored g roots s) :
    s.isSeen v = true ↔ v ∈ s.components.flatten := by
  simp [isSeen_iff, h.stack]

theorem Explored.visitRoot (hedge : ∀ v ∈ vertices, ∀ w, g.Edge v w → w ∈ vertices)
    (hcard : vertices.card ≤ depth) (hr : r ∈ vertices) (h : Explored g roots s) :
    Explored g (roots ++ [r]) (g.visitRoot depth s r) := by
  have hor : ∀ v, (∃ x ∈ roots ++ [r], g.Reaches x v) ↔
      (∃ x ∈ roots, g.Reaches x v) ∨ g.Reaches r v := by
    simp [or_and_right, exists_or]
  by_cases hseen : s.isSeen r = true
  · rw [Digraph.visitRoot, if_pos hseen]
    refine ⟨h.sound, h.stack, fun v => ?_⟩
    rw [hor, ← h.mem_iff, or_iff_left_of_imp]
    exact fun hv => h.sound.mem_closed (h.seen_iff.mp hseen) hv
  rw [Digraph.visitRoot, if_neg hseen]
  obtain ⟨pushed, hvisited⟩ := visits g vertices hedge depth r s h.sound hseen hr
    (by simp [h.stack]) ((Finset.card_filter_le _ _).trans hcard)
  have hpushed : pushed = [] := by
    by_contra hne
    obtain ⟨w, hw, _⟩ := hvisited.attained.exists (hvisited.lower hne)
    simp [h.stack] at hw
  have hstack : (g.visit depth r s).2.stack = [] := by
    rw [hvisited.grown.stack, hpushed, h.stack, List.append_nil]
  have hclosed : ∀ v, (g.visit depth r s).2.isSeen v = true ↔
      v ∈ (g.visit depth r s).2.components.flatten := by
    simp [isSeen_iff, hstack]
  refine ⟨hvisited.grown.sound, hstack, fun v => ?_⟩
  rw [hor, ← h.mem_iff]
  constructor
  · intro hv
    exact (hvisited.grown.reached v ((hclosed v).mpr hv)).imp_left h.seen_iff.mp
  · rintro (hv | hv)
    · exact hvisited.grown.keeps hv
    · exact hvisited.grown.sound.mem_closed ((hclosed r).mp hvisited.seen) hv

theorem Explored.foldl (hedge : ∀ v ∈ vertices, ∀ w, g.Edge v w → w ∈ vertices)
    (hcard : vertices.card ≤ depth) {more : List α} (hmore : ∀ r ∈ more, r ∈ vertices)
    (h : Explored g roots s) :
    Explored g (roots ++ more) (more.foldl (g.visitRoot depth) s) := by
  induction more generalizing roots s with
  | nil => simpa using h
  | cons r more ih =>
    rw [List.forall_mem_cons] at hmore
    rw [List.foldl_cons, ← List.singleton_append, ← List.append_assoc]
    exact ih hmore.2 (h.visitRoot hedge hcard hmore.1)

/-- The roots and what an edge leads to: all that a search may meet. -/
def reachable (g : Digraph α) (roots : List α) : Finset α := (roots ++ g.vertices).toFinset

theorem card_reachable_le : (g.reachable roots).card ≤ roots.length + g.vertices.length := by
  rw [← List.length_append]
  exact List.toFinset_card_le _

theorem mem_reachable_of_root (hv : v ∈ roots) : v ∈ g.reachable roots := by
  simp [reachable, hv]

theorem mem_reachable_of_edge (h : g.Edge v w) : w ∈ g.reachable roots := by
  simp [reachable, mem_vertices h]

theorem areComponents_visits (h : roots.length + g.vertices.length ≤ depth) :
    g.AreComponents roots (roots.foldl (g.visitRoot depth) ⟨[], []⟩).components := by
  have hempty : Explored g [] ⟨[], []⟩ := ⟨.empty g, rfl, by simp⟩
  have hroots : ∀ r ∈ roots, r ∈ g.reachable roots := fun _ => mem_reachable_of_root
  have hexplored := hempty.foldl (fun _ _ _ he => mem_reachable_of_edge he)
    (card_reachable_le.trans h) hroots
  rw [List.nil_append] at hexplored
  have hnodup := hexplored.sound.nodup
  rw [hexplored.stack, List.nil_append] at hnodup
  exact ⟨hnodup, hexplored.sound.nonempty, hexplored.mem_iff, hexplored.sound.connected,
    hexplored.sound.forward⟩

end Digraph

end Causality
