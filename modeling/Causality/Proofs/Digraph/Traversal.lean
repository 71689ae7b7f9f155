import Causality.Digraph.Components
import Causality.Proofs.Digraph.Depth

/-!
# The search step by step

Where the recursive search makes a whole visit, a step follows one edge or leaves one vertex. So in
the midst of a search there is a visit for each vertex on the branch, of which the rest is to come.
If that rest is made recursively, no step changes what the search comes to. Low links are numbers
and not heights, but along the stack numbers grow as heights do.
-/

namespace Causality

variable {α : Type} [DecidableEq α] {g : Digraph α} {s : Exploration α} {v w : α}

namespace Traversal

open Exploration Causality.Digraph

variable {t t' : Traversal α}

@[simp] theorem indexOf_enter_self : (t.enter v).indexOf v = t.index.length := by
  simp [indexOf, enter]

theorem indexOf_enter (h : w ≠ v) : (t.enter v).indexOf w = t.indexOf w := by
  simp only [indexOf, enter, List.lookup_cons, beq_eq_false_iff_ne.mpr h]

@[simp] theorem lowOf_enter_self : (t.enter v).lowOf v = t.index.length := by
  simp [lowOf, enter]

theorem lowOf_enter (h : w ≠ v) : (t.enter v).lowOf w = t.lowOf w := by
  simp only [lowOf, enter, List.lookup_cons, beq_eq_false_iff_ne.mpr h]

@[simp] theorem lowOf_lower_self {k : Nat} : (t.lower v k).lowOf v = min (t.lowOf v) k := by
  simp [lowOf, lower]

theorem lowOf_lower {k : Nat} (h : w ≠ v) : (t.lower v k).lowOf w = t.lowOf w := by
  simp only [lowOf, lower, List.lookup_cons, beq_eq_false_iff_ne.mpr h]

theorem toExploration_passOn : (t.passOn v).toExploration = t.toExploration := by
  unfold passOn
  split <;> rfl

theorem indexOf_passOn : (t.passOn v).indexOf w = t.indexOf w := by
  rw [indexOf, index_passOn, indexOf]

theorem lowOf_passOn (h : w ∉ t.branch.map (·.1)) : (t.passOn v).lowOf w = t.lowOf w := by
  unfold passOn
  split
  · rfl
  · rename_i u i outer hbranch
    rw [hbranch, List.map_cons, List.mem_cons, not_or] at h
    exact lowOf_lower h.1

theorem branch_of_step_eq_none (h : t.step g = none) : t.branch = [] := by
  unfold step at h
  split at h
  · assumption
  · split at h <;> cases h

/-! ### Visits that are not finished -/

/-- A visit of which some edges were followed, with the height of its vertex and the lowest height
that it reached. -/
structure Visit (α : Type) where
  vertex : α
  followed : Nat
  height : Nat
  low : Nat

namespace Visit

def start (s : Exploration α) (v : α) : Visit α where
  vertex := v
  followed := 0
  height := s.stack.length + 1
  low := s.stack.length + 1

/-- Follows the other edges and leaves the vertex. -/
def resume (g : Digraph α) (visit : α → Exploration α → Nat × Exploration α) (p : Visit α)
    (reached : Nat × Exploration α) : Nat × Exploration α :=
  let (low, s) := ((g.successors p.vertex).drop p.followed).foldl (Exploration.follow visit) reached
  if low = p.height then (low, s.close p.vertex) else (low, s)

/-- Resumes the visit after one that was made from it. -/
def await (g : Digraph α) (visit : α → Exploration α → Nat × Exploration α)
    (reached : Nat × Exploration α) (p : Visit α) : Nat × Exploration α :=
  p.resume g visit (min p.low reached.1, reached.2)

end Visit

/-- What a search comes to if the visits that are not finished are resumed, the innermost first. -/
def outcome (g : Digraph α) (visit : α → Exploration α → Nat × Exploration α) :
    List (Visit α) → Exploration α → Exploration α
  | [], s => s
  | p :: outer, s => (outer.foldl (Visit.await g visit) (p.resume g visit (p.low, s))).2

variable {visit : α → Exploration α → Nat × Exploration α} {p : Visit α} {ps outer : List (Visit α)}

theorem Visit.resume_of_edge {reached : Nat × Exploration α}
    (hw : (g.successors p.vertex)[p.followed]? = some w) :
    p.resume g visit reached =
      { p with followed := p.followed + 1 }.resume g visit
        (Exploration.follow visit reached w) := by
  obtain ⟨hlt, rfl⟩ := List.getElem?_eq_some_iff.mp hw
  simp only [resume, List.drop_eq_getElem_cons hlt, List.foldl_cons]

theorem Visit.resume_of_none {reached : Nat × Exploration α}
    (h : (g.successors p.vertex)[p.followed]? = none) :
    p.resume g visit reached =
      (reached.1, if reached.1 = p.height then reached.2.close p.vertex else reached.2) := by
  rw [List.getElem?_eq_none_iff] at h
  rw [resume, List.drop_eq_nil_of_le h, List.foldl_nil]
  dsimp only
  split_ifs <;> rfl

theorem outcome_of_edge (hw : (g.successors p.vertex)[p.followed]? = some w) {low : Nat}
    (hfollow : Exploration.follow visit (p.low, s) w = (low, s)) :
    outcome g visit (p :: outer) s =
      outcome g visit ({ p with followed := p.followed + 1, low := low } :: outer) s := by
  rw [outcome, Visit.resume_of_edge hw, hfollow]
  rfl

theorem outcome_of_unseen (hw : (g.successors p.vertex)[p.followed]? = some w)
    (hseen : ¬ s.isSeen w = true)
    (hvisit : visit w s = (Visit.start s w).resume g visit (s.stack.length + 1, s.push w)) :
    outcome g visit (p :: outer) s = outcome g visit
      (.start s w :: { p with followed := p.followed + 1 } :: outer) (s.push w) := by
  rw [outcome, Visit.resume_of_edge hw, follow_of_unseen hseen, hvisit]
  rfl

theorem outcome_of_none (h : (g.successors p.vertex)[p.followed]? = none) :
    outcome g visit (p :: outer) s =
      outcome g visit (outer.modifyHead fun q => { q with low := min q.low p.low })
        (if p.low = p.height then s.close p.vertex else s) := by
  rw [outcome, Visit.resume_of_none h]
  cases outer with
  | nil => rfl
  | cons q outer => rfl

/-! ### The invariant of a step -/

/-- Vertices are numbered as they are seen, so the numbers of the open ones grow along the stack. -/
structure Numbered (t : Traversal α) : Prop where
  indexed : ∀ v, t.isIndexed v = true ↔ t.isSeen v = true
  sorted : t.stack.Pairwise fun u w => t.indexOf w < t.indexOf u
  bounded : ∀ v ∈ t.stack, t.indexOf v < t.index.length

/-- The low link is the number of an open vertex, at the lowest height that was reached. -/
structure Visit.Links (t : Traversal α) (p : Visit α) : Prop where
  height : t.height p.vertex = p.height
  low : ∃ w ∈ t.stack, t.height w = p.low ∧ t.indexOf w = t.lowOf p.vertex
  le : p.low ≤ p.height

/-- The visits are those of the branch, the innermost first, and they left their vertices open. -/
structure Tracks (t : Traversal α) (ps : List (Visit α)) : Prop where
  numbered : Numbered t
  branch : t.branch = ps.map fun p => (p.vertex, p.followed)
  nested : (ps.map (·.vertex)).Sublist t.stack
  links : ∀ p ∈ ps, p.Links t

namespace Numbered

theorem nodup (h : Numbered t) : t.stack.Nodup :=
  h.sorted.imp fun hlt huw => hlt.ne (by rw [huw])

theorem height_lt_iff (h : Numbered t) (hv : v ∈ t.stack) (hw : w ∈ t.stack) :
    t.height v < t.height w ↔ t.indexOf v < t.indexOf w :=
  Exploration.height_lt_iff h.sorted hv hw

theorem height_le_iff (h : Numbered t) (hv : v ∈ t.stack) (hw : w ∈ t.stack) :
    t.height v ≤ t.height w ↔ t.indexOf v ≤ t.indexOf w := by
  have hlt := h.height_lt_iff hw hv
  omega

theorem ne_of_unseen (h : Numbered t) (hv : ¬ t.isIndexed v = true) (hw : w ∈ t.stack) :
    w ≠ v := by
  rintro rfl
  exact hv ((h.indexed w).mpr (isSeen_iff.mpr (.inl hw)))

theorem enter (h : Numbered t) (hv : ¬ t.isIndexed v = true) : Numbered (t.enter v) where
  indexed w := by
    rw [isIndexed_enter, Bool.or_eq_true, decide_eq_true_eq, h.indexed]
    exact isSeen_push.symm
  sorted := by
    have hne := fun w => h.ne_of_unseen (w := w) hv
    refine List.pairwise_cons.mpr ⟨fun w hw => ?_, h.sorted.imp_of_mem fun {u w} hu hw hlt => ?_⟩
    · rw [indexOf_enter_self, indexOf_enter (hne w hw)]
      exact h.bounded w hw
    · rw [indexOf_enter (hne u hu), indexOf_enter (hne w hw)]
      exact hlt
  bounded := by
    refine List.forall_mem_cons.mpr ⟨?_, fun w hw => ?_⟩
    · rw [indexOf_enter_self]
      exact Nat.lt_succ_self _
    · rw [indexOf_enter (h.ne_of_unseen hv hw)]
      exact (h.bounded w hw).trans (Nat.lt_succ_self _)

theorem close {above below : List α} (h : Numbered t) (hs : t.stack = above ++ v :: below)
    (hv : v ∉ above) : Numbered { t with toExploration := t.close v } where
  indexed w := by
    rw [close_eq hs hv, isSeen_iff]
    have hold := h.indexed w
    rw [isSeen_iff, hs] at hold
    refine hold.trans ?_
    simp only [List.flatten_append, List.flatten_singleton, List.mem_append, List.mem_cons,
      List.not_mem_nil, or_false]
    tauto
  sorted := by
    have hsorted := h.sorted
    rw [hs, List.pairwise_append, List.pairwise_cons] at hsorted
    rw [close_eq hs hv]
    exact hsorted.2.1.2
  bounded w hw := by
    rw [close_eq hs hv] at hw
    apply h.bounded
    rw [hs]
    exact List.mem_append_right _ (List.mem_cons_of_mem _ hw)

end Numbered

namespace Visit.Links

theorem start (t : Traversal α) (v : α) :
    (Visit.start t.toExploration v).Links (t.enter v) where
  height := by simp [Visit.start, Exploration.height, Traversal.enter, push]
  low := by
    refine ⟨v, List.mem_cons_self, ?_, ?_⟩
    · simp [Visit.start, Exploration.height, Traversal.enter, push]
    · exact indexOf_enter_self.trans lowOf_enter_self.symm
  le := le_rfl

theorem enter (hp : p.Links t) (h : Numbered t) (hv : ¬ t.isIndexed v = true)
    (hmem : p.vertex ∈ t.stack) : p.Links (t.enter v) := by
  have hne := fun w => h.ne_of_unseen (w := w) hv
  have hstack : (t.enter v).stack = [v] ++ t.stack := rfl
  have hheight : ∀ w ∈ t.stack, (t.enter v).height w = t.height w := fun w hw =>
    height_of_mem_below hstack (h.enter hv).nodup hw
  obtain ⟨w, hw, hlow, hindex⟩ := hp.low
  refine ⟨(hheight _ hmem).trans hp.height, ⟨w, List.mem_cons_of_mem _ hw, ?_, ?_⟩, hp.le⟩
  · exact (hheight w hw).trans hlow
  · rw [indexOf_enter (hne w hw), lowOf_enter (hne _ hmem), hindex]

/-- A vertex is the lowest of its component exactly if its low link is its own number. -/
theorem lowOf_eq_iff (hp : p.Links t) (h : Numbered t) (hmem : p.vertex ∈ t.stack) :
    t.lowOf p.vertex = t.indexOf p.vertex ↔ p.low = p.height := by
  obtain ⟨w, hw, hlow, hindex⟩ := hp.low
  have hless := h.height_le_iff hw hmem
  have hmore := h.height_le_iff hmem hw
  rw [hlow, hp.height] at hless hmore
  omega

theorem lower (hp : p.Links t) (h : Numbered t) (hw : w ∈ t.stack) :
    { p with low := min p.low (t.height w) }.Links (t.lower p.vertex (t.indexOf w)) where
  height := hp.height
  low := by
    obtain ⟨x, hx, hlow, hindex⟩ := hp.low
    rw [lowOf_lower_self, ← hlow, ← hindex]
    have hle := h.height_le_iff hx hw
    rcases Nat.le_total (t.height x) (t.height w) with hless | hmore
    · rw [Nat.min_eq_left hless, Nat.min_eq_left (hle.mp hless)]
      exact ⟨x, hx, rfl, rfl⟩
    · rw [Nat.min_eq_right hmore, Nat.min_eq_right ((h.height_le_iff hw hx).mp hmore)]
      exact ⟨w, hw, rfl, rfl⟩
  le := (Nat.min_le_left _ _).trans hp.le

theorem close {above below : List α} (hp : p.Links t) (h : Numbered t)
    (hs : t.stack = above ++ v :: below) (hv : v ∉ above) (hmem : p.vertex ∈ below) :
    p.Links { t with toExploration := t.close v } := by
  have hstack : (t.close v).stack = below := by rw [close_eq hs hv]
  have hsplit : t.stack = (above ++ [v]) ++ (t.close v).stack := by
    rw [hstack, hs, List.append_assoc, List.singleton_append]
  have hheight : ∀ w ∈ below, t.height w = (t.close v).height w := fun w hw =>
    height_of_mem_below hsplit h.nodup (hstack ▸ hw)
  obtain ⟨w, hw, hlow, hindex⟩ := hp.low
  have hbelow : w ∈ below := by
    rw [hsplit, hstack] at hw
    refine (List.mem_append.mp hw).resolve_left fun habove => ?_
    have hhigh := lt_height_of_mem_above hsplit habove
    have hown : (t.close v).height p.vertex ≤ (t.close v).stack.length := height_le
    rw [← hheight _ hmem, hp.height] at hown
    have hle := hp.le
    omega
  exact ⟨(hheight _ hmem).symm.trans hp.height,
    ⟨w, hstack ▸ hbelow, (hheight w hbelow).symm.trans hlow, hindex⟩, hp.le⟩

end Visit.Links

namespace Tracks

theorem empty : Tracks (α := α) .empty [] where
  numbered :=
    { indexed := by simp [isIndexed, isSeen_iff, Traversal.empty]
      sorted := .nil
      bounded := by simp [Traversal.empty] }
  branch := rfl
  nested := .slnil
  links := by simp

theorem mem_stack (h : Tracks t ps) (hp : p ∈ ps) : p.vertex ∈ t.stack :=
  h.nested.subset (List.mem_map_of_mem hp)

theorem nodup (h : Tracks t ps) : (ps.map (·.vertex)).Nodup :=
  h.nested.nodup h.numbered.nodup

theorem enter (h : Tracks t ps) (hv : ¬ t.isIndexed v = true) :
    Tracks (t.enter v) (.start t.toExploration v :: ps) where
  numbered := h.numbered.enter hv
  branch := by
    rw [Traversal.enter, h.branch]
    rfl
  nested := h.nested.cons_cons v
  links := List.forall_mem_cons.mpr ⟨.start t v,
    fun p hp => (h.links p hp).enter h.numbered hv (h.mem_stack hp)⟩

theorem lower (h : Tracks t (p :: outer)) (hw : w ∈ t.stack) :
    Tracks (t.lower p.vertex (t.indexOf w))
      ({ p with low := min p.low (t.height w) } :: outer) where
  numbered := ⟨h.numbered.indexed, h.numbered.sorted, h.numbered.bounded⟩
  branch := h.branch
  nested := h.nested
  links := by
    obtain ⟨hp, houter⟩ := List.forall_mem_cons.mp h.links
    refine List.forall_mem_cons.mpr ⟨hp.lower h.numbered hw, fun q hq => ?_⟩
    have hne : q.vertex ≠ p.vertex := by
      intro heq
      have hnodup := h.nodup
      rw [List.map_cons, List.nodup_cons, ← heq] at hnodup
      exact hnodup.1 (List.mem_map_of_mem hq)
    refine ⟨(houter q hq).height, ?_, (houter q hq).le⟩
    rw [lowOf_lower hne]
    exact (houter q hq).low

theorem passOn {low : Nat} (h : Tracks t ps) (hw : w ∈ t.stack) (hheight : t.height w = low)
    (hindex : t.indexOf w = t.lowOf v) :
    Tracks (t.passOn v) (ps.modifyHead fun q => { q with low := min q.low low }) := by
  have hbranch := h.branch
  cases ps with
  | nil =>
    have hpass : t.passOn v = t := by simp [Traversal.passOn, hbranch]
    rw [hpass]
    exact h
  | cons q outer =>
    have hpass : t.passOn v = t.lower q.vertex (t.indexOf w) := by
      simp [Traversal.passOn, hbranch, hindex]
    rw [hpass, ← hheight]
    exact h.lower hw

theorem close (h : Tracks t ps) (hv : (v :: ps.map (·.vertex)).Sublist t.stack) :
    Tracks { t with toExploration := t.close v } ps := by
  obtain ⟨above, below, hs, hnot⟩ := List.eq_append_cons_of_mem (hv.subset List.mem_cons_self)
  have hnested : (ps.map (·.vertex)).Sublist below := by
    rw [hs, List.sublist_append_iff] at hv
    obtain ⟨front, back, hsplit, hfront, hback⟩ := hv
    cases front with
    | nil =>
      obtain rfl : _ = back := hsplit
      exact List.cons_sublist_cons.mp hback
    | cons u front =>
      obtain ⟨rfl, _⟩ := List.cons.inj hsplit
      exact absurd (hfront.subset List.mem_cons_self) hnot
  refine ⟨h.numbered.close hs hnot, h.branch, ?_, fun p hp => ?_⟩
  · rw [close_eq hs hnot]
    exact hnested
  · exact (h.links p hp).close h.numbered hs hnot (hnested.subset (List.mem_map_of_mem hp))

theorem advance (h : Tracks t (p :: outer)) :
    Tracks
      { t with
        branch := (p.vertex, p.followed + 1) :: outer.map fun q => (q.vertex, q.followed) }
      ({ p with followed := p.followed + 1 } :: outer) where
  numbered := ⟨h.numbered.indexed, h.numbered.sorted, h.numbered.bounded⟩
  branch := rfl
  nested := h.nested
  links := by
    obtain ⟨hp, houter⟩ := List.forall_mem_cons.mp h.links
    exact List.forall_mem_cons.mpr
      ⟨⟨hp.height, hp.low, hp.le⟩, fun q hq =>
        ⟨(houter q hq).height, (houter q hq).low, (houter q hq).le⟩⟩

theorem tail (h : Tracks t (p :: outer)) :
    Tracks { t with branch := outer.map fun q => (q.vertex, q.followed) } outer where
  numbered := ⟨h.numbered.indexed, h.numbered.sorted, h.numbered.bounded⟩
  branch := rfl
  nested := (List.sublist_cons_self _ _).trans h.nested
  links q hq := by
    have hq := h.links q (List.mem_cons_of_mem _ hq)
    exact ⟨hq.height, hq.low, hq.le⟩

theorem closeIfLowest (h : Tracks t ps) (hv : (v :: ps.map (·.vertex)).Sublist t.stack)
    {lowest : Prop} [Decidable lowest] (htest : t.lowOf v = t.indexOf v ↔ lowest) :
    Tracks (t.closeIfLowest v) ps ∧
      (t.closeIfLowest v).toExploration = if lowest then t.close v else t.toExploration := by
  unfold Traversal.closeIfLowest
  by_cases hlowest : lowest
  · rw [if_pos (htest.mpr hlowest), if_pos hlowest]
    exact ⟨h.close hv, rfl⟩
  · rw [if_neg (mt htest.mp hlowest), if_neg hlowest]
    exact ⟨h, rfl⟩

theorem leave (h : Tracks t outer) (hp : p.Links t) (hnested :
    (p.vertex :: outer.map (·.vertex)).Sublist t.stack) :
    Tracks (t.leave p.vertex) (outer.modifyHead fun q => { q with low := min q.low p.low }) ∧
      (t.leave p.vertex).toExploration =
        if p.low = p.height then t.close p.vertex else t.toExploration := by
  have hnodup := hnested.nodup h.numbered.nodup
  have hnotin : p.vertex ∉ t.branch.map (·.1) := by
    rw [List.nodup_cons] at hnodup
    simpa [h.branch, Function.comp_def] using hnodup.1
  obtain ⟨w, hw, hlow, hindex⟩ := hp.low
  have htest : (t.passOn p.vertex).lowOf p.vertex = (t.passOn p.vertex).indexOf p.vertex ↔
      p.low = p.height := by
    rw [lowOf_passOn hnotin, indexOf_passOn]
    exact hp.lowOf_eq_iff h.numbered (hnested.subset List.mem_cons_self)
  have hleft := (h.passOn hw hlow hindex).closeIfLowest
    (by rw [toExploration_passOn]; cases outer <;> exact hnested) htest
  rw [toExploration_passOn] at hleft
  exact hleft

end Tracks

/-! ### The search -/

/-- A visit that enters the vertex and then makes visits of the same kind. -/
def Recurs (g : Digraph α) (vertices : Finset α)
    (visit : α → Exploration α → Nat × Exploration α) : Prop :=
  ∀ v ∈ vertices, ∀ s, ¬ s.isSeen v = true →
    visit v s = (Visit.start s v).resume g visit (s.stack.length + 1, s.push v)

variable {vertices : Finset α} {roots more : List α} {depth : Nat}

theorem recurs_visit (hedge : ∀ v ∈ vertices, ∀ w, g.Edge v w → w ∈ vertices)
    (hcard : vertices.card ≤ depth) : Recurs g vertices (g.visit depth) := by
  intro v hv s hseen
  have hdepth : (Exploration.unseen vertices s).card ≤ depth :=
    (Finset.card_filter_le _ _).trans hcard
  rw [agree_visit hedge (Nat.le_succ depth) v s hseen hv hdepth]
  rfl

theorem Tracks.follow (h : Tracks t ({ p with followed := p.followed + 1 } :: outer))
    (hw : (g.successors p.vertex)[p.followed]? = some w) (hmem : w ∈ vertices)
    (hvisit : Recurs g vertices visit) :
    ∃ ps, Tracks (t.follow p.vertex w) ps ∧
      outcome g visit ps (t.follow p.vertex w).toExploration =
        outcome g visit (p :: outer) t.toExploration := by
  by_cases hindexed : t.isIndexed w = true
  · have hseen := (h.numbered.indexed w).mp hindexed
    by_cases hopen : w ∈ t.stack
    · have hstep : t.follow p.vertex w = t.lower p.vertex (t.indexOf w) := by
        simp [Traversal.follow, hindexed, hopen]
      rw [hstep, outcome_of_edge hw (follow_of_open hopen)]
      exact ⟨_, h.lower hopen, rfl⟩
    · have hstep : t.follow p.vertex w = t := by
        simp [Traversal.follow, hindexed, hopen]
      rw [hstep, outcome_of_edge hw (follow_of_closed hopen hseen)]
      exact ⟨_, h, rfl⟩
  · have hseen : ¬ t.isSeen w = true := mt (h.numbered.indexed w).mpr hindexed
    have hstep : t.follow p.vertex w = t.enter w := by
      simp [Traversal.follow, hindexed]
    rw [hstep, outcome_of_unseen hw hseen (hvisit w hmem _ hseen)]
    exact ⟨_, h.enter hindexed, rfl⟩

/-- No step changes what the search comes to. -/
theorem Tracks.step (h : Tracks t ps) (hvertices : ∀ v ∈ g.vertices, v ∈ vertices)
    (hvisit : Recurs g vertices visit) (hstep : t.step g = some t') :
    ∃ ps', Tracks t' ps' ∧
      outcome g visit ps' t'.toExploration = outcome g visit ps t.toExploration := by
  have hbranch := h.branch
  cases ps with
  | nil =>
    rw [List.map_nil] at hbranch
    simp [Traversal.step, hbranch] at hstep
  | cons p outer =>
    rw [List.map_cons] at hbranch
    rw [Traversal.step, hbranch] at hstep
    dsimp only at hstep
    cases hw : (g.successors p.vertex)[p.followed]? with
    | none =>
      rw [hw] at hstep
      obtain rfl := Option.some.inj hstep
      obtain ⟨hp, _⟩ := List.forall_mem_cons.mp h.links
      obtain ⟨htracks, hleft⟩ := h.tail.leave ⟨hp.height, hp.low, hp.le⟩ h.nested
      rw [outcome_of_none hw, ← hleft]
      exact ⟨_, htracks, rfl⟩
    | some w =>
      rw [hw] at hstep
      obtain rfl := Option.some.inj hstep
      obtain ⟨hlt, rfl⟩ := List.getElem?_eq_some_iff.mp hw
      exact h.advance.follow hw (hvertices _ (mem_vertices (List.getElem_mem hlt))) hvisit

theorem Tracks.run (h : Tracks t ps) (hvertices : ∀ v ∈ g.vertices, v ∈ vertices)
    (hvisit : Recurs g vertices visit) :
    Tracks (t.run g) [] ∧ (t.run g).toExploration = outcome g visit ps t.toExploration := by
  induction t using Traversal.run.induct g generalizing ps with
  | case1 t hstep =>
    rw [Traversal.run, hstep]
    have hbranch := h.branch
    rw [branch_of_step_eq_none hstep] at hbranch
    obtain rfl := List.map_eq_nil_iff.mp hbranch.symm
    exact ⟨h, rfl⟩
  | case2 t t' hstep ih =>
    rw [Traversal.run, hstep]
    obtain ⟨ps', htracks, houtcome⟩ := h.step hvertices hvisit hstep
    rw [← houtcome]
    exact ih htracks

theorem Tracks.explore (h : Tracks t []) (hv : v ∈ g.reachable roots)
    (hdepth : roots.length + g.vertices.length ≤ depth) :
    Tracks (t.explore g v) [] ∧
      (t.explore g v).toExploration = g.visitRoot depth t.toExploration v := by
  by_cases hindexed : t.isIndexed v = true
  · have hseen := (h.numbered.indexed v).mp hindexed
    rw [Traversal.explore, if_pos hindexed, visitRoot, if_pos hseen]
    exact ⟨h, rfl⟩
  · have hseen : ¬ t.isSeen v = true := mt (h.numbered.indexed v).mpr hindexed
    have hedge : ∀ u ∈ g.reachable roots, ∀ w, g.Edge u w → w ∈ g.reachable roots :=
      fun _ _ _ he => mem_reachable_of_edge he
    have hvertices : ∀ u ∈ g.vertices, u ∈ g.reachable roots := by
      intro u hu
      simp [reachable, hu]
    have hvisit := recurs_visit hedge (card_reachable_le.trans hdepth)
    have hrun := (h.enter hindexed).run hvertices hvisit
    rw [Traversal.explore, if_neg hindexed, visitRoot, if_neg hseen, hvisit v hv _ hseen]
    exact hrun

theorem Tracks.foldl_explore (h : Tracks t []) (hmore : more ⊆ roots)
    (hdepth : roots.length + g.vertices.length ≤ depth) :
    (more.foldl (Traversal.explore g) t).toExploration =
      more.foldl (g.visitRoot depth) t.toExploration := by
  induction more generalizing t with
  | nil => rfl
  | cons v more ih =>
    obtain ⟨hv, hmore⟩ := List.cons_subset.mp hmore
    obtain ⟨htracks, hvisit⟩ := h.explore (mem_reachable_of_root hv) hdepth
    rw [List.foldl_cons, List.foldl_cons, ← hvisit]
    exact ih htracks hmore

end Traversal

namespace Digraph

variable {roots : List α} {depth : Nat}

/-- The steps of the search find the components that the recursive search finds. -/
theorem components_eq (hdepth : roots.length + g.vertices.length ≤ depth) :
    g.components roots = (roots.foldl (g.visitRoot depth) ⟨[], []⟩).components := by
  have h := Traversal.Tracks.empty.foldl_explore (List.Subset.refl roots) hdepth
  exact congrArg Exploration.components h

theorem areComponents (g : Digraph α) (roots : List α) :
    g.AreComponents roots (g.components roots) := by
  rw [components_eq le_rfl]
  exact areComponents_visits le_rfl

/-- The components partition what the roots reach, two vertices share one exactly if they reach
each other, and an edge between two components leads to the earlier one. The recursive search finds
the same ones at every depth that admits all vertices. -/
theorem components_are_strong (g : Digraph α) (roots : List α) :
    (∀ depth, roots.length + g.vertices.length ≤ depth →
      (roots.foldl (g.visitRoot depth) ⟨[], []⟩).components = g.components roots) ∧
    ([] ∉ g.components roots ∧ (g.components roots).flatten.Nodup ∧
      ∀ v, v ∈ (g.components roots).flatten ↔ ∃ r ∈ roots, g.Reaches r v) ∧
    (∀ u ∈ (g.components roots).flatten, ∀ v ∈ (g.components roots).flatten,
      (∃ c ∈ g.components roots, u ∈ c ∧ v ∈ c) ↔ g.Reaches u v ∧ g.Reaches v u) ∧
    ∀ i j (hi : i < (g.components roots).length) (hj : j < (g.components roots).length),
      ∀ u ∈ (g.components roots)[i], ∀ w ∈ (g.components roots)[j], g.Edge u w → i ≠ j →
        j < i := by
  have h := g.areComponents roots
  refine ⟨fun depth hdepth => (components_eq hdepth).symm, ⟨h.nonempty, h.nodup, h.mem_iff⟩, ?_, ?_⟩
  · intro u hu v _
    constructor
    · rintro ⟨c, hc, huc, hvc⟩
      exact (h.connected c hc u huc v).mp hvc
    · intro hconnected
      obtain ⟨c, hc, huc⟩ := List.mem_flatten.mp hu
      exact ⟨c, hc, huc, (h.connected c hc u huc v).mpr hconnected⟩
  · intro i j hi hj u hu w hw huw hne
    by_contra hlt
    have hij : i < j := by omega
    exact List.pairwise_iff_getElem.mp h.forward i j hi hj hij u hu w hw huw

end Digraph

end Causality
