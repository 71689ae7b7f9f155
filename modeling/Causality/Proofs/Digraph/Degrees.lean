import Causality.Digraph.Order
import Causality.Proofs.Digraph.Dispatch

/-!
# Counting predecessors

While components are taken from the agenda, the number kept for each one that is left is the number
of those left that point to it, and the ones with number zero are queued by their keys. So the run
is a dispatch of the components, in whatever order targets are gone through.
-/

namespace Causality

variable {components left queue : List Ranked} {c d : Ranked} {i j : Nat}

/-! ### The queue -/

namespace Ranked

theorem mem_enqueue : d ∈ c.enqueue queue ↔ d = c ∨ d ∈ queue := by
  induction queue with
  | nil => simp [enqueue]
  | cons e rest ih =>
    unfold enqueue
    split
    · rw [List.mem_cons, ih, List.mem_cons]
      exact or_left_comm
    · exact List.mem_cons

theorem sorted_enqueue (hsorted : queue.Pairwise fun c d => c.key < d.key)
    (hkey : ∀ d ∈ queue, d.key ≠ c.key) :
    (c.enqueue queue).Pairwise fun c d => c.key < d.key := by
  induction queue with
  | nil => exact List.pairwise_singleton _ _
  | cons e rest ih =>
    obtain ⟨he, hrest⟩ := List.pairwise_cons.mp hsorted
    have hne := hkey e List.mem_cons_self
    unfold enqueue
    split
    · next hprecedes =>
      have hlt : e.key < c.key := by simpa [precedes, hne] using hprecedes
      refine List.pairwise_cons.mpr ⟨fun d hd => ?_, ih hrest fun d hd => ?_⟩
      · rcases mem_enqueue.mp hd with rfl | hd
        · exact hlt
        · exact he d hd
      · exact hkey d (List.mem_cons_of_mem _ hd)
    · next hprecedes =>
      have hlt : c.key < e.key := by
        have hle : c.key ≤ e.key := by simpa [precedes, hne] using hprecedes
        exact lt_of_le_of_ne hle (Ne.symm hne)
      refine List.pairwise_cons.mpr ⟨fun d hd => ?_, hsorted⟩
      rcases List.mem_cons.mp hd with rfl | hd
      · exact hlt
      · exact Int.lt_trans hlt (he d hd)

theorem mem_foldr_enqueue : d ∈ left.foldr enqueue [] ↔ d ∈ left := by
  induction left with
  | nil => rfl
  | cons c rest ih => rw [List.foldr_cons, mem_enqueue, ih, List.mem_cons]

theorem sorted_foldr_enqueue (hkey : left.Pairwise fun c d => c.key ≠ d.key) :
    (left.foldr enqueue []).Pairwise fun c d => c.key < d.key := by
  induction left with
  | nil => exact .nil
  | cons c rest ih =>
    obtain ⟨hc, hrest⟩ := List.pairwise_cons.mp hkey
    refine sorted_enqueue (ih hrest) fun d hd => ?_
    exact (hc d (mem_foldr_enqueue.mp hd)).symm

end Ranked

/-! ### The quotient -/

theorem countP_eq_succ {α : Type} {p q : α → Bool} {xs : List α} {x : α} (hnodup : xs.Nodup)
    (hx : x ∈ xs) (hp : p x = false) (hq : q x = true) (hsame : ∀ y ∈ xs, y ≠ x → q y = p y) :
    xs.countP q = xs.countP p + 1 := by
  obtain ⟨front, back, rfl⟩ := List.append_of_mem hx
  obtain ⟨hnot, _⟩ := List.nodup_cons.mp (List.nodup_middle.mp hnodup)
  have hfront : front.countP q = front.countP p := by
    refine List.countP_congr fun y hy => ?_
    rw [hsame y (by simp [hy]) fun heq => hnot (by simp [← heq, hy])]
  have hback : back.countP q = back.countP p := by
    refine List.countP_congr fun y hy => ?_
    rw [hsame y (by simp [hy]) fun heq => hnot (by simp [← heq, hy])]
  rw [List.countP_append, List.countP_append, List.countP_cons_of_pos hq,
    List.countP_cons_of_neg (by simp [hp]), hfront, hback, Nat.add_assoc]

namespace Quotient

/-- The targets of each of the sources are counted once. -/
structure Counts (sources : List Nat) (q : Quotient) : Prop where
  nodup : ∀ i, (q.targets i).Nodup
  other : ∀ i, i ∉ q.targets i
  indegree : ∀ j, q.indegree j = sources.countP fun i => j ∈ q.targets i

variable {sources : List Nat} {q : Quotient} {l : Link} {links : List Link}

theorem mem_targets_add :
    j ∈ (q.add l).targets i ↔ j ∈ q.targets i ∨ l.source ≠ l.target ∧ l = ⟨i, j⟩ := by
  obtain ⟨s, t⟩ := l
  unfold add
  split
  · next h => grind
  · next h => grind

theorem Counts.add (h : q.Counts sources) (hnodup : sources.Nodup) (hl : l.source ∈ sources) :
    (q.add l).Counts sources := by
  by_cases hskip : l.source = l.target ∨ l.target ∈ q.targets l.source
  · rwa [Quotient.add, if_pos hskip]
  obtain ⟨hne, hnew⟩ := not_or.mp hskip
  refine ⟨fun i => ?_, fun i hi => ?_, fun j => ?_⟩
  · rw [Quotient.add, if_neg hskip]
    dsimp only
    split
    · next hi => exact List.nodup_cons.mpr ⟨hi ▸ hnew, h.nodup i⟩
    · exact h.nodup i
  · rcases mem_targets_add.mp hi with hi | ⟨_, hli⟩
    · exact h.other i hi
    · exact hne (by rw [hli])
  · by_cases hj : j = l.target
    · subst hj
      have hcount : (q.add l).indegree l.target = q.indegree l.target + 1 := by
        simp [Quotient.add, hskip]
      rw [hcount, h.indegree]
      refine (countP_eq_succ hnodup hl (by simpa using hnew) ?_ fun i _ hi => ?_).symm
      · simpa using mem_targets_add.mpr (.inr ⟨hne, rfl⟩)
      · rw [decide_eq_decide, mem_targets_add, or_iff_left]
        rintro ⟨_, hli⟩
        exact hi (by rw [hli])
    · have hcount : (q.add l).indegree j = q.indegree j := by simp [Quotient.add, hskip, hj]
      rw [hcount, h.indegree]
      refine List.countP_congr fun i _ => ?_
      rw [decide_eq_true_eq, decide_eq_true_eq, mem_targets_add, or_iff_left]
      rintro ⟨_, hli⟩
      exact hj (by rw [hli])

theorem foldl_add (hnodup : sources.Nodup) (hlinks : ∀ l ∈ links, l.source ∈ sources)
    (h : q.Counts sources) : (links.foldl add q).Counts sources ∧
      ∀ i j, j ∈ (links.foldl add q).targets i ↔ j ∈ q.targets i ∨ i ≠ j ∧ ⟨i, j⟩ ∈ links := by
  induction links generalizing q with
  | nil => exact ⟨h, fun i j => by simp⟩
  | cons l links ih =>
    obtain ⟨hcounts, hmem⟩ := ih (fun l hl => hlinks l (List.mem_cons_of_mem _ hl))
      (h.add hnodup (hlinks l List.mem_cons_self))
    refine ⟨hcounts, fun i j => ?_⟩
    rw [List.foldl_cons, hmem, mem_targets_add, List.mem_cons]
    constructor
    · rintro ((hold | ⟨hne, rfl⟩) | ⟨hne, hl⟩)
      · exact .inl hold
      · exact .inr ⟨hne, .inl rfl⟩
      · exact .inr ⟨hne, .inr hl⟩
    · rintro (hold | ⟨hne, rfl | hl⟩)
      · exact .inl (.inl hold)
      · exact .inl (.inr ⟨hne, rfl⟩)
      · exact .inr ⟨hne, hl⟩

theorem counts_ofLinks (hnodup : sources.Nodup) (hlinks : ∀ l ∈ links, l.source ∈ sources) :
    (ofLinks links).Counts sources ∧
      ∀ i j, j ∈ (ofLinks links).targets i ↔ i ≠ j ∧ ⟨i, j⟩ ∈ links := by
  have hempty : empty.Counts sources := ⟨fun _ => .nil, fun _ => List.not_mem_nil, fun j => by
    simp [empty]⟩
  obtain ⟨hcounts, hmem⟩ := foldl_add hnodup hlinks hempty
  refine ⟨hcounts, fun i j => (hmem i j).trans (or_iff_right ?_)⟩
  exact List.not_mem_nil

end Quotient

/-! ### The agenda -/

/-- Numbers and keys tell the components apart. -/
structure Ranked.Distinct (components : List Ranked) : Prop where
  index : (components.map (·.index)).Nodup
  key : (components.map (·.key)).Nodup

namespace Agenda

variable {targets : Nat → List Nat} {a : Agenda} {target : Nat} {ts : List Nat}
  {rest others : List Ranked}

/-- The queue holds components that wait for nothing, sorted by their keys. -/
structure Sound (components : List Ranked) (a : Agenda) : Prop where
  known : ∀ c ∈ a.ready, c ∈ components
  free : ∀ c ∈ a.ready, a.waiting c.index = 0
  sorted : a.ready.Pairwise fun c d => c.key < d.key

section Release

variable (hdistinct : Ranked.Distinct components)

include hdistinct

theorem mem_ready_release : d ∈ (a.release components target).ready ↔
    d ∈ a.ready ∨ d ∈ components ∧ d.index = target ∧ a.waiting target = 1 := by
  by_cases hlast : a.waiting target = 1
  · cases hfind : components.find? fun c => c.index = target with
    | none =>
      have hnone : ¬ (d ∈ components ∧ d.index = target ∧ a.waiting target = 1) :=
        fun h => List.find?_eq_none.mp hfind d h.1 (decide_eq_true h.2.1)
      simp only [release, hfind, ite_self, hnone, or_false]
    | some c =>
      have hc := List.mem_of_find?_eq_some hfind
      have hindex : c.index = target := by simpa using List.find?_some hfind
      simp only [release, hlast, hfind, if_true, Ranked.mem_enqueue]
      constructor
      · rintro (rfl | hd)
        · exact .inr ⟨hc, hindex, trivial⟩
        · exact .inl hd
      · rintro (hd | ⟨hd, hdindex, -⟩)
        · exact .inr hd
        · exact .inl (List.inj_on_of_nodup_map hdistinct.index hd hc (hdindex.trans hindex.symm))
  · simp [release, hlast]

theorem Sound.release (h : a.Sound components) :
    (a.release components target).Sound components := by
  refine ⟨fun d hd => ?_, fun d hd => ?_, ?_⟩
  · rcases (mem_ready_release hdistinct).mp hd with hd | ⟨hd, -⟩
    · exact h.known d hd
    · exact hd
  · rcases (mem_ready_release hdistinct).mp hd with hd | ⟨-, rfl, hlast⟩
    · simp [Agenda.release, h.free d hd]
    · simp [Agenda.release, hlast]
  · by_cases hlast : a.waiting target = 1
    · cases hfind : components.find? fun c => c.index = target with
      | none => simpa [Agenda.release, hfind] using h.sorted
      | some c =>
        have hc := List.mem_of_find?_eq_some hfind
        have hindex : c.index = target := by simpa using List.find?_some hfind
        have hkey : ∀ d ∈ a.ready, d.key ≠ c.key := by
          intro d hd heq
          obtain rfl := List.inj_on_of_nodup_map hdistinct.key (h.known d hd) hc heq
          have hfree := h.free d hd
          rw [hindex, hlast] at hfree
          exact Nat.one_ne_zero hfree
        simpa [Agenda.release, hlast, hfind] using Ranked.sorted_enqueue h.sorted hkey
    · simpa [Agenda.release, hlast] using h.sorted

theorem Sound.foldl_release (h : a.Sound components) :
    (ts.foldl (Agenda.release components) a).Sound components := by
  induction ts generalizing a with
  | nil => exact h
  | cons target ts ih => exact ih (h.release hdistinct)

theorem mem_ready_foldl (hnodup : ts.Nodup) :
    d ∈ (ts.foldl (Agenda.release components) a).ready ↔
      d ∈ a.ready ∨ d ∈ components ∧ d.index ∈ ts ∧ a.waiting d.index = 1 := by
  induction ts generalizing a with
  | nil => simp
  | cons target ts ih =>
    obtain ⟨hnot, hrest⟩ := List.nodup_cons.mp hnodup
    rw [List.foldl_cons, ih hrest, mem_ready_release hdistinct, List.mem_cons]
    have hlater : d.index ∈ ts →
        (a.release components target).waiting d.index = a.waiting d.index := by
      intro hd
      exact if_neg fun heq : d.index = target => hnot (heq ▸ hd)
    constructor
    · rintro ((hd | ⟨hd, rfl, hlast⟩) | ⟨hd, hmem, hlast⟩)
      · exact .inl hd
      · exact .inr ⟨hd, .inl rfl, hlast⟩
      · exact .inr ⟨hd, .inr hmem, hlater hmem ▸ hlast⟩
    · rintro (hd | ⟨hd, rfl | hmem, hlast⟩)
      · exact .inl (.inl hd)
      · exact .inl (.inr ⟨hd, rfl, hlast⟩)
      · exact .inr ⟨hd, hmem, (hlater hmem).trans hlast⟩

end Release

theorem waiting_foldl (hnodup : ts.Nodup) : (ts.foldl (Agenda.release components) a).waiting i =
    if i ∈ ts then a.waiting i - 1 else a.waiting i := by
  induction ts generalizing a with
  | nil => rfl
  | cons target ts ih =>
    obtain ⟨hnot, hrest⟩ := List.nodup_cons.mp hnodup
    rw [List.foldl_cons, ih hrest]
    by_cases hi : i = target
    · subst hi
      rw [if_neg hnot, if_pos List.mem_cons_self]
      exact if_pos rfl
    · have hsame : (a.release components target).waiting i = a.waiting i := if_neg hi
      simp only [hsame, List.mem_cons, hi, false_or]

/-- The components that are left are counted, and those with number zero are queued. -/
structure Tracks (components : List Ranked) (targets : Nat → List Nat) (left : List Ranked)
    (a : Agenda) : Prop where
  sound : a.Sound components
  nodup : left.Nodup
  known : ∀ c ∈ left, c ∈ components
  waiting : ∀ c ∈ left, a.waiting c.index = left.countP fun d => c.index ∈ targets d.index
  listed : ∀ c ∈ components, c ∉ left → a.waiting c.index = 0
  mem_ready : ∀ c, c ∈ a.ready ↔ c ∈ left ∧ a.waiting c.index = 0

namespace Tracks

variable (h : a.Tracks components targets left)

include h

theorem free_iff (hc : c ∈ left) :
    a.waiting c.index = 0 ↔ ∀ d ∈ left, c.index ∉ targets d.index := by
  rw [h.waiting c hc, List.countP_eq_zero]
  simp only [decide_eq_true_eq]

theorem first (hready : a.ready = c :: rest) : c ∈ left ∧ a.waiting c.index = 0 := by
  rw [← h.mem_ready, hready]
  exact List.mem_cons_self

theorem key_lt_of_rest (hready : a.ready = c :: rest) (hd : d ∈ rest) : c.key < d.key := by
  have hsorted := h.sound.sorted
  rw [hready] at hsorted
  exact List.rel_of_pairwise_cons hsorted hd

theorem mem_rest (hready : a.ready = c :: rest) :
    d ∈ rest ↔ (d ∈ left ∧ d ≠ c) ∧ a.waiting d.index = 0 := by
  have hd := h.mem_ready d
  rw [hready, List.mem_cons] at hd
  constructor
  · intro hrest
    obtain ⟨hleft, hfree⟩ := hd.mp (.inr hrest)
    refine ⟨⟨hleft, ?_⟩, hfree⟩
    rintro rfl
    exact Int.lt_irrefl _ (h.key_lt_of_rest hready hrest)
  · rintro ⟨⟨hleft, hne⟩, hfree⟩
    exact (hd.mpr ⟨hleft, hfree⟩).resolve_left hne

theorem sound_rest (hready : a.ready = c :: rest) : Sound components { a with ready := rest } where
  known d hd := h.known d ((h.mem_rest hready).mp hd).1.1
  free d hd := ((h.mem_rest hready).mp hd).2
  sorted := by
    have hsorted := h.sound.sorted
    rw [hready] at hsorted
    exact (List.pairwise_cons.mp hsorted).2

section Others

variable (hperm : (c :: others).Perm left)

include hperm

theorem nodup_cons : c ∉ others ∧ others.Nodup :=
  List.nodup_cons.mp (hperm.nodup_iff.mpr h.nodup)

theorem mem_others : d ∈ others ↔ d ∈ left ∧ d ≠ c := by
  rw [← hperm.mem_iff, List.mem_cons]
  constructor
  · intro hd
    exact ⟨.inr hd, fun heq => (h.nodup_cons hperm).1 (heq ▸ hd)⟩
  · rintro ⟨hd, hne⟩
    exact hd.resolve_left hne

theorem waiting_others (hd : d ∈ left) : a.waiting d.index =
    others.countP (fun e => d.index ∈ targets e.index) +
      if d.index ∈ targets c.index then 1 else 0 := by
  rw [h.waiting d hd, ← hperm.countP_eq, List.countP_cons]
  simp only [decide_eq_true_eq]

end Others

end Tracks

section Run

variable (htargets : ∀ i, (targets i).Nodup ∧ i ∉ targets i)

include htargets

/-- Where nothing is queued, every component that is left waits for another one. -/
theorem Tracks.exists_waited (h : a.Tracks components targets left) (hready : a.ready = [])
    (hd : d ∈ left) : ∃ c ∈ left, d.index ∈ targets c.index ∧ c ≠ d := by
  have hwaits : ¬ ∀ c ∈ left, d.index ∉ targets c.index := by
    intro hfree
    have hmem := (h.mem_ready d).mpr ⟨hd, (h.free_iff hd).mpr hfree⟩
    rw [hready] at hmem
    exact List.not_mem_nil hmem
  push Not at hwaits
  obtain ⟨c, hc, hcd⟩ := hwaits
  exact ⟨c, hc, hcd, fun heq => (htargets d.index).2 (heq ▸ hcd)⟩

/-- The first in the queue is the least of those that no other one left points to. -/
theorem Tracks.first_lt (h : a.Tracks components targets left) (hready : a.ready = c :: rest)
    (hd : d ∈ left ∧ d ≠ c)
    (hdready : Ready (fun c d => d.index ∈ targets c.index) left d) : c.key < d.key := by
  have hfree : a.waiting d.index = 0 := by
    refine (h.free_iff hd.1).mpr fun e he hed => ?_
    obtain rfl := hdready e he hed
    exact (htargets e.index).2 hed
  exact h.key_lt_of_rest hready ((h.mem_rest hready).mpr ⟨hd, hfree⟩)

variable (hdistinct : Ranked.Distinct components)

include hdistinct

theorem Tracks.step (h : a.Tracks components targets left) (hready : a.ready = c :: rest)
    (hperm : (c :: others).Perm left) :
    ((targets c.index).foldl (Agenda.release components) { a with ready := rest }).Tracks
      components targets others := by
  have hwaiting : ∀ i,
      ((targets c.index).foldl (Agenda.release components) { a with ready := rest }).waiting i =
        if i ∈ targets c.index then a.waiting i - 1 else a.waiting i :=
    fun _ => waiting_foldl (htargets c.index).1
  refine ⟨(h.sound_rest hready).foldl_release hdistinct, (h.nodup_cons hperm).2, ?_, ?_, ?_, ?_⟩
  · intro d hd
    exact h.known d ((h.mem_others hperm).mp hd).1
  · intro d hd
    have hcount := h.waiting_others hperm ((h.mem_others hperm).mp hd).1
    rw [hwaiting]
    split at hcount <;> simp [*]
  · intro d hd hnot
    have hzero : a.waiting d.index = 0 := by
      by_cases hdc : d = c
      · rw [hdc, (h.first hready).2]
      · exact h.listed d hd fun hleft => hnot ((h.mem_others hperm).mpr ⟨hleft, hdc⟩)
    simp [hwaiting, hzero]
  · -- What was not queued before and is now waited for `c` alone.
    intro d
    rw [mem_ready_foldl hdistinct (htargets c.index).1, hwaiting, h.mem_others hperm]
    dsimp only
    rw [h.mem_rest hready]
    constructor
    · rintro (⟨hd, hzero⟩ | ⟨hd, htarget, hone⟩)
      · exact ⟨hd, by simp [hzero]⟩
      · refine ⟨⟨?_, ?_⟩, by simp [htarget, hone]⟩
        · by_contra hnot
          exact absurd (h.listed d hd hnot) (by simp [hone])
        · rintro rfl
          exact (htargets d.index).2 htarget
    · rintro ⟨hd, hzero⟩
      split at hzero
      · next htarget =>
        have hcount := h.waiting_others hperm hd.1
        rw [if_pos htarget] at hcount
        exact .inr ⟨h.known d hd.1, htarget, by omega⟩
      · exact .inl ⟨hd, hzero⟩

/-- The agenda keeps track of what is left, until nothing is queued. -/
theorem run_dispatch (h : a.Tracks components targets left) : ∃ order stuck,
    run components targets a = order.map (·.members) ∧
      Dispatch (fun c d => d.index ∈ targets c.index) (·.key) left order stuck := by
  induction hn : left.length generalizing left a with
  | zero =>
    obtain rfl := List.length_eq_zero_iff.mp hn
    have hready : a.ready = [] := by
      refine List.eq_nil_iff_forall_not_mem.mpr fun c hc => ?_
      exact absurd ((h.mem_ready c).mp hc).1 List.not_mem_nil
    refine ⟨[], [], ?_, .nil fun d hd => absurd hd List.not_mem_nil⟩
    rw [run]
    split
    · rfl
    · next heq => exact absurd (hready.symm.trans heq) (by simp)
  | succ n ih =>
    rw [run]
    split
    · next hready =>
      exact ⟨[], left, rfl, .nil fun d hd => h.exists_waited htargets hready hd⟩
    · next c rest hready =>
      obtain ⟨hc, hfree⟩ := h.first hready
      obtain ⟨front, back, hsplit⟩ := List.append_of_mem hc
      have hperm : (c :: (front ++ back)).Perm left := hsplit ▸ List.perm_middle.symm
      have hlength : (front ++ back).length = n := by
        have hlength := hperm.length_eq
        rw [List.length_cons, hn] at hlength
        exact Nat.succ.inj hlength
      obtain ⟨order, stuck, hrun, hdispatch⟩ := ih (h.step htargets hdistinct hready hperm) hlength
      refine ⟨c :: order, stuck, by rw [hrun, List.map_cons], .cons h.nodup hperm ?_ ?_ hdispatch⟩
      · intro d hd hdc
        exact absurd hdc ((h.free_iff hc).mp hfree d hd)
      · exact fun d hd => h.first_lt htargets hready ((h.mem_others hperm).mp hd)

end Run

theorem start_tracks {q : Quotient} (hdistinct : Ranked.Distinct components)
    (hq : q.Counts (components.map (·.index))) (htargets : ∀ i, (targets i).Perm (q.targets i)) :
    (start components q).Tracks components targets components := by
  have hready : ∀ c, c ∈ (start components q).ready ↔ c ∈ components ∧ q.indegree c.index = 0 := by
    intro c
    rw [start, Ranked.mem_foldr_enqueue, List.mem_filter, decide_eq_true_eq]
  have hkeys : components.Pairwise fun c d => c.key ≠ d.key := List.pairwise_map.mp hdistinct.key
  refine ⟨⟨?_, ?_, ?_⟩, hdistinct.index.of_map _, fun _ hc => hc, ?_, ?_, hready⟩
  · intro c hc
    exact ((hready c).mp hc).1
  · intro c hc
    exact ((hready c).mp hc).2
  · exact Ranked.sorted_foldr_enqueue (hkeys.sublist List.filter_sublist)
  · intro c _
    refine (hq.indegree c.index).trans ?_
    rw [List.countP_map]
    refine List.countP_congr fun d _ => ?_
    simp only [Function.comp_apply, decide_eq_true_eq, (htargets d.index).mem_iff]
  · intro c hc hnot
    exact absurd hc hnot

end Agenda

end Causality
