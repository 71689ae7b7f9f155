import Causality.Proofs.Digraph.Components

/-!
# Depth of a search

A search never forgets what it has seen. So it goes down at most once for each vertex, and a bound
on the depth that admits every vertex is never met.
-/

namespace Causality

variable {α : Type} [DecidableEq α] {g : Digraph α} {s : Exploration α} {v w : α}

namespace Exploration

/-! ### What was seen stays seen -/

theorem isSeen_close (h : s.isSeen w = true) : (s.close v).isSeen w = true := by
  rw [isSeen_iff] at h ⊢
  simp only [close, List.flatten_append, List.flatten_singleton, List.mem_append,
    List.mem_singleton]
  rcases h with hopen | hclosed
  · rw [← List.takeWhile_append_dropWhile (p := fun u => decide (u ≠ v)) (l := s.stack),
      List.mem_append] at hopen
    rcases hopen with habove | hbelow
    · exact .inr (.inr (.inl habove))
    · cases hdrop : s.stack.dropWhile fun u => decide (u ≠ v) with
      | nil =>
        rw [hdrop] at hbelow
        cases hbelow
      | cons u below =>
        rw [hdrop, List.mem_cons] at hbelow
        have hu : u = v := by
          have hhead := List.head?_dropWhile_not (fun u => decide (u ≠ v)) s.stack
          rw [hdrop] at hhead
          simpa using hhead
        rcases hbelow with rfl | hbelow
        · exact .inr (.inr (.inr hu))
        · exact .inl hbelow
  · exact .inr (.inl hclosed)

def Keeps (visit : α → Exploration α → Nat × Exploration α) : Prop :=
  ∀ v s w, s.isSeen w = true → (visit v s).2.isSeen w = true

variable {visit : α → Exploration α → Nat × Exploration α} {reached : Nat × Exploration α}

theorem Keeps.follow (h : Keeps visit) (hw : reached.2.isSeen w = true) :
    (Exploration.follow visit reached v).2.isSeen w = true := by
  obtain ⟨low, t⟩ := reached
  unfold Exploration.follow
  dsimp only at hw ⊢
  split_ifs
  · exact hw
  · exact hw
  · exact h v t w hw

theorem Keeps.foldl (h : Keeps visit) (ws : List α) (hw : reached.2.isSeen w = true) :
    (ws.foldl (Exploration.follow visit) reached).2.isSeen w = true := by
  induction ws generalizing reached with
  | nil => exact hw
  | cons v ws ih => exact ih (h.follow hw)

theorem keeps_visit (g : Digraph α) (depth : Nat) : Keeps (g.visit depth) := by
  induction depth with
  | zero => exact fun _ _ _ hw => hw
  | succ depth ih =>
    intro v s w hw
    have hstart : (s.stack.length + 1, s.push v).2.isSeen w = true := isSeen_push.mpr (.inr hw)
    have hfold := ih.foldl (g.successors v) hstart
    unfold Digraph.visit
    dsimp only
    split_ifs
    · exact isSeen_close hfold
    · exact hfold

/-! ### Depth to spare -/

variable {vertices : Finset α} {depth larger : Nat}

/-- Both visits come to the same where at most `depth` vertices were not seen. -/
def Agree (vertices : Finset α) (depth : Nat)
    (visit visit' : α → Exploration α → Nat × Exploration α) : Prop :=
  ∀ v s, ¬ s.isSeen v = true → v ∈ vertices → (unseen vertices s).card ≤ depth →
    visit v s = visit' v s

variable {visit' : α → Exploration α → Nat × Exploration α}

theorem Agree.follow (h : Agree vertices depth visit visit') (hv : v ∈ vertices)
    (hdepth : (unseen vertices reached.2).card ≤ depth) :
    Exploration.follow visit reached v = Exploration.follow visit' reached v := by
  obtain ⟨low, t⟩ := reached
  unfold Exploration.follow
  dsimp only at hdepth ⊢
  split_ifs with hopen hclosed
  · rfl
  · rfl
  · have hunseen : ¬ t.isSeen v = true := by
      rw [Exploration.isSeen, Bool.or_eq_true]
      exact not_or.mpr ⟨hopen, hclosed⟩
    rw [h v t hunseen hv hdepth]

theorem Agree.foldl (h : Agree vertices depth visit visit') (hkeeps : Keeps visit) {ws : List α}
    (hws : ∀ w ∈ ws, w ∈ vertices) (hdepth : (unseen vertices reached.2).card ≤ depth) :
    ws.foldl (Exploration.follow visit) reached = ws.foldl (Exploration.follow visit') reached := by
  induction ws generalizing reached with
  | nil => rfl
  | cons w ws ih =>
    rw [List.forall_mem_cons] at hws
    rw [List.foldl_cons, List.foldl_cons, ← h.follow hws.1 hdepth]
    refine ih hws.2 (le_trans (Finset.card_le_card ?_) hdepth)
    exact unseen_subset fun x hx => hkeeps.follow hx

/-- A greater depth makes no difference if there is one for each vertex that was not seen. -/
theorem agree_visit (hedge : ∀ v ∈ vertices, ∀ w, g.Edge v w → w ∈ vertices)
    (hle : depth ≤ larger) : Agree vertices depth (g.visit depth) (g.visit larger) := by
  induction depth generalizing larger with
  | zero =>
    intro v s hv hmem hdepth
    have hin : v ∈ unseen vertices s := by simpa [unseen, hmem] using hv
    exact absurd (Finset.card_pos.mpr ⟨v, hin⟩) (by omega)
  | succ depth ih =>
    cases larger with
    | zero => omega
    | succ larger =>
      intro v s hv hmem hdepth
      have hpush := card_unseen_push hv hmem
      have hfold : (g.successors v).foldl (Exploration.follow (g.visit depth))
            (s.stack.length + 1, s.push v) =
          (g.successors v).foldl (Exploration.follow (g.visit larger))
            (s.stack.length + 1, s.push v) := by
        apply (ih (Nat.le_of_succ_le_succ hle)).foldl (keeps_visit g depth) (hedge v hmem)
        dsimp only
        omega
      simp only [Digraph.visit, hfold]

end Exploration

end Causality
