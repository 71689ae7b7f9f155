import Causality.Digraph.Exploration
import Mathlib.Data.Finset.Card
import Mathlib.Data.List.Nodup
import Mathlib.Logic.Relation

/-!
# State of an exploration

Heights on the stack, and what holds between two visits: the closed vertices fall into complete
components, which no edge leaves towards a vertex that is still open or was not seen.
-/

namespace Causality

variable {α : Type} [DecidableEq α]

namespace Digraph

def Edge (g : Digraph α) (u v : α) : Prop := v ∈ g.successors u

def Reaches (g : Digraph α) : α → α → Prop := Relation.ReflTransGen g.Edge

variable {g : Digraph α} {u v w : α}

theorem Edge.reaches (h : g.Edge u v) : g.Reaches u v := .single h

theorem Reaches.trans (h : g.Reaches u v) (h' : g.Reaches v w) : g.Reaches u w :=
  Relation.ReflTransGen.trans h h'

/-- What a set holds that no edge leaves holds all that is reached from it. -/
theorem Reaches.mem {p : α → Prop} (hp : ∀ x, p x → ∀ y, g.Edge x y → p y) (h : g.Reaches u v)
    (hu : p u) : p v := by
  induction h with
  | refl => exact hu
  | tail _ he ih => exact hp _ ih _ he

end Digraph

namespace Exploration

variable {s t : Exploration α} {v w : α}

theorem isSeen_iff : s.isSeen v = true ↔ v ∈ s.stack ∨ v ∈ s.components.flatten := by
  simp [isSeen, isClosed]

theorem isSeen_push : (s.push v).isSeen w = true ↔ w = v ∨ s.isSeen w = true := by
  simp [isSeen_iff, push, or_assoc]

/-! ### Heights -/

theorem dropWhile_append {above below : List α} (h : v ∉ above) :
    (above ++ below).dropWhile (fun w => w ≠ v) = below.dropWhile fun w => w ≠ v := by
  refine List.dropWhile_append_of_pos fun w hw => ?_
  simpa using fun hwv : w = v => h (hwv ▸ hw)

theorem dropWhile_self {below : List α} :
    (v :: below).dropWhile (fun w => w ≠ v) = v :: below := by
  simp

theorem height_le : s.height v ≤ s.stack.length :=
  (List.dropWhile_sublist _).length_le

/-- What is pushed later leaves the heights below alone. -/
theorem height_of_mem_below {above : List α} (ht : t.stack = above ++ s.stack)
    (hn : t.stack.Nodup) (hv : v ∈ s.stack) : t.height v = s.height v := by
  have hnot : v ∉ above := by
    intro habove
    rw [ht] at hn
    exact (List.nodup_append.mp hn).2.2 v habove v hv rfl
  rw [height, ht, dropWhile_append hnot, height]

theorem lt_height_of_mem_above {above below : List α} (ht : t.stack = above ++ below)
    (hv : v ∈ above) : below.length < t.height v := by
  obtain ⟨front, back, rfl, hfront⟩ := List.eq_append_cons_of_mem hv
  rw [height, ht, List.append_assoc, dropWhile_append hfront, List.cons_append, dropWhile_self,
    List.length_cons, List.length_append]
  omega

/-- Numbers that grow along the stack are in the order of the heights. -/
theorem height_lt_iff {number : α → Nat}
    (h : s.stack.Pairwise fun u w => number w < number u) (hv : v ∈ s.stack) (hw : w ∈ s.stack) :
    s.height v < s.height w ↔ number v < number w := by
  obtain ⟨stack, components⟩ := s
  unfold height
  dsimp only at h hv hw ⊢
  induction stack with
  | nil => cases hv
  | cons u below ih =>
    obtain ⟨hu, hbelow⟩ := List.pairwise_cons.mp h
    have hle : ∀ x, (below.dropWhile fun y => y ≠ x).length ≤ below.length :=
      fun x => (List.dropWhile_sublist _).length_le
    have hskip : ∀ x ∈ below, (u :: below).dropWhile (fun y => y ≠ x) =
        below.dropWhile fun y => y ≠ x := by
      intro x hx
      have hux : u ≠ x := fun hux => (hu x hx).ne (by rw [hux])
      simp [hux]
    rcases List.mem_cons.mp hv with rfl | hv'
    · rcases List.mem_cons.mp hw with rfl | hw'
      · simp
      · rw [hskip w hw', dropWhile_self, List.length_cons]
        have hlow := hle w
        have hless := hu w hw'
        omega
    · rcases List.mem_cons.mp hw with rfl | hw'
      · rw [hskip v hv', dropWhile_self, List.length_cons]
        have hlow := hle v
        have hless := hu v hv'
        omega
      · rw [hskip v hv', hskip w hw']
        exact ih hbelow hv' hw'

theorem close_eq {above below : List α} (hs : s.stack = above ++ v :: below) (hv : v ∉ above) :
    s.close v = ⟨below, s.components ++ [above ++ [v]]⟩ := by
  have hne : ∀ w ∈ above, decide (w ≠ v) = true := by
    intro w hw
    simpa using fun hwv : w = v => hv (hwv ▸ hw)
  rw [Exploration.close, hs, dropWhile_append hv, dropWhile_self,
    List.takeWhile_append_of_pos hne]
  simp

/-! ### Following an edge -/

variable {visit : α → Exploration α → Nat × Exploration α} {low : Nat}

theorem follow_of_open (h : w ∈ s.stack) :
    Exploration.follow visit (low, s) w = (min low (s.height w), s) := by
  simp [Exploration.follow, h]

theorem follow_of_closed (hopen : w ∉ s.stack) (hseen : s.isSeen w = true) :
    Exploration.follow visit (low, s) w = (low, s) := by
  have hclosed : s.isClosed w = true := by simpa [Exploration.isSeen, hopen] using hseen
  simp [Exploration.follow, hopen, hclosed]

theorem follow_of_unseen (h : ¬ s.isSeen w = true) :
    Exploration.follow visit (low, s) w = (min low (visit w s).1, (visit w s).2) := by
  rw [Exploration.isSeen, Bool.or_eq_true, not_or] at h
  simp only [Exploration.follow, if_neg h.1, if_neg h.2]

/-- The closed vertices are complete components, none of which has an edge to a later one. -/
structure Sound (g : Digraph α) (s : Exploration α) : Prop where
  nodup : (s.stack ++ s.components.flatten).Nodup
  nonempty : [] ∉ s.components
  connected : ∀ c ∈ s.components, ∀ u ∈ c, ∀ v, v ∈ c ↔ g.Reaches u v ∧ g.Reaches v u
  closed : ∀ u ∈ s.components.flatten, ∀ v, g.Edge u v → v ∈ s.components.flatten
  forward : s.components.Pairwise fun c d => ∀ u ∈ c, ∀ v ∈ d, ¬ g.Edge u v

namespace Sound

variable {g : Digraph α} {u : α}

theorem empty (g : Digraph α) : Sound g ⟨[], []⟩ where
  nodup := by simp
  nonempty := by simp
  connected := by simp
  closed := by simp
  forward := by simp

theorem push (h : Sound g s) (hv : ¬ s.isSeen v = true) : Sound g (s.push v) where
  nodup := by
    rw [isSeen_iff, ← List.mem_append] at hv
    exact List.nodup_cons.mpr ⟨hv, h.nodup⟩
  nonempty := h.nonempty
  connected := h.connected
  closed := h.closed
  forward := h.forward

theorem nodup_stack (h : Sound g s) : s.stack.Nodup := (List.nodup_append.mp h.nodup).1

theorem notMem_closed (h : Sound g s) (hv : v ∈ s.stack) : v ∉ s.components.flatten :=
  fun hc => (List.nodup_append.mp h.nodup).2.2 v hv v hc rfl

theorem mem_closed (h : Sound g s) (hu : u ∈ s.components.flatten) (hv : g.Reaches u v) :
    v ∈ s.components.flatten :=
  hv.mem h.closed hu

/-! ### Closing a component -/

variable {above below : List α}

theorem notMem_above (h : Sound g s) (hs : s.stack = above ++ v :: below) : v ∉ above := by
  intro habove
  have hn := h.nodup_stack
  rw [hs] at hn
  exact (List.nodup_append.mp hn).2.2 v habove v List.mem_cons_self rfl

theorem stack_close (h : Sound g s) (hs : s.stack = above ++ v :: below) :
    (s.close v).stack = below := by
  rw [close_eq hs (h.notMem_above hs)]

theorem components_close (h : Sound g s) (hs : s.stack = above ++ v :: below) :
    (s.close v).components = s.components ++ [above ++ [v]] := by
  rw [close_eq hs (h.notMem_above hs)]

theorem notMem_of_above (h : Sound g s) (hs : s.stack = above ++ v :: below)
    (hu : u ∈ above ++ [v]) : u ∉ s.components.flatten := by
  apply h.notMem_closed
  rw [hs, List.append_cons]
  exact List.mem_append_left below hu

/-- No path leaves `part` but into the closed vertices, and none comes back from these. -/
theorem mem_part (h : Sound g s) {part : List α} (hopen : ∀ u ∈ part, u ∉ s.components.flatten)
    (hout : ∀ u ∈ part, ∀ w, g.Edge u w → w ∈ part ∨ w ∈ s.components.flatten) {w : α}
    (hu : u ∈ part) (huw : g.Reaches u w) (hwu : g.Reaches w u) : w ∈ part := by
  have hstep : ∀ x, x ∈ part ∨ x ∈ s.components.flatten → ∀ y, g.Edge x y →
      y ∈ part ∨ y ∈ s.components.flatten := by
    intro x hx y hxy
    cases hx with
    | inl hx => exact hout x hx y hxy
    | inr hx => exact .inr (h.closed x hx y hxy)
  have hw := huw.mem (p := fun x => x ∈ part ∨ x ∈ s.components.flatten) hstep (.inl hu)
  apply hw.resolve_right
  intro hclosed
  exact hopen u hu (h.mem_closed hclosed hwu)

/-- What lies above `v` becomes its component if it is connected with `v` and every edge that
leaves it ends at a closed vertex. -/
theorem close (h : Sound g s) (hs : s.stack = above ++ v :: below)
    (hto : ∀ u ∈ above ++ [v], g.Reaches v u) (hfrom : ∀ u ∈ above ++ [v], g.Reaches u v)
    (hout : ∀ u ∈ above ++ [v], ∀ w, g.Edge u w →
      w ∈ above ++ [v] ∨ w ∈ s.components.flatten) : Sound g (s.close v) where
  nodup := by
    rw [h.stack_close hs, h.components_close hs]
    refine h.nodup.perm (List.perm_iff_count.mpr fun w => ?_)
    rw [hs]
    simp only [List.flatten_append, List.flatten_singleton, List.count_append, List.count_cons,
      List.count_nil]
    omega
  nonempty := by
    rw [h.components_close hs]
    simpa using h.nonempty
  connected := by
    rw [h.components_close hs]
    intro c hc u hu w
    cases List.mem_append.mp hc with
    | inl hc => exact h.connected c hc u hu w
    | inr hc =>
      obtain rfl := List.mem_singleton.mp hc
      constructor
      · intro hw
        exact ⟨(hfrom u hu).trans (hto w hw), (hfrom w hw).trans (hto u hu)⟩
      · intro hconnected
        exact h.mem_part (fun u hu => h.notMem_of_above hs hu) hout hu hconnected.1 hconnected.2
  closed := by
    rw [h.components_close hs, List.flatten_append, List.flatten_singleton]
    intro u hu w huw
    rw [List.mem_append] at hu ⊢
    cases hu with
    | inl hu => exact .inl (h.closed u hu w huw)
    | inr hu => exact (hout u hu w huw).symm
  forward := by
    rw [h.components_close hs, List.pairwise_append]
    refine ⟨h.forward, List.pairwise_singleton _ _, ?_⟩
    intro c hc d hd u hu w hw huw
    obtain rfl := List.mem_singleton.mp hd
    exact h.notMem_of_above hs hw (h.closed u (List.mem_flatten.mpr ⟨c, hc, hu⟩) w huw)

end Sound

end Exploration

end Causality
