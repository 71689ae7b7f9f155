import Mathlib.Data.Fintype.Card
import Mathlib.Data.List.Nodup
import Mathlib.Data.Set.Finite.Basic
import Mathlib.Order.WellFounded

/-!
# Dispatch orders

A list is dispatched if each item in turn is the first by its key of those that are ready, that is,
that nothing left points to. Links and keys determine such an order, and it is the least one in
which every link goes forward. A dispatch that ends with items left over is stuck on cycles: what
is left over lies on a cycle or behind one.
-/

namespace Causality

variable {γ δ : Type}

/-- Nothing left points to `d`, other than itself. -/
def Ready (link : γ → γ → Prop) (left : List γ) (d : γ) : Prop := ∀ e ∈ left, link e d → e = d

def Dispatched (link : γ → γ → Prop) (key : γ → Int) : List γ → Prop
  | [] => True
  | c :: rest => Ready link (c :: rest) c ∧
      (∀ d ∈ rest, Ready link (c :: rest) d → key c < key d) ∧ Dispatched link key rest

variable {link link' : γ → γ → Prop} {key key' : γ → Int} {xs ys : List γ} {c d : γ}

theorem Ready.of_subset (h : Ready link ys d) (hsub : ∀ e ∈ xs, e ∈ ys) : Ready link xs d :=
  fun e he => h e (hsub e he)

namespace Dispatched

theorem forward (h : Dispatched link key xs) : xs.Pairwise fun c d => link d c → d = c := by
  induction xs with
  | nil => exact .nil
  | cons c rest ih =>
    obtain ⟨hready, _, hrest⟩ := h
    exact List.pairwise_cons.mpr ⟨fun d hd => hready d (List.mem_cons_of_mem _ hd), ih hrest⟩

theorem nodup (h : Dispatched link key xs) : xs.Nodup := by
  induction xs with
  | nil => exact .nil
  | cons c rest ih =>
    obtain ⟨hready, hfirst, hrest⟩ := h
    exact List.nodup_cons.mpr ⟨fun hc => Int.lt_irrefl _ (hfirst c hc hready), ih hrest⟩

/-- The head of one order is ready in the other, so neither key is less than the other. -/
theorem unique (hx : Dispatched link key xs) (hy : Dispatched link key ys) (hperm : xs.Perm ys) :
    xs = ys := by
  induction xs generalizing ys with
  | nil => exact (List.nil_perm.mp hperm).symm
  | cons c xs ih =>
    cases ys with
    | nil => exact absurd hperm.length_eq (by simp)
    | cons d ys =>
      obtain ⟨hc, hcs, hxs⟩ := hx
      obtain ⟨hd, hds, hys⟩ := hy
      obtain rfl : c = d := by
        by_contra hne
        have hdx : d ∈ xs :=
          (List.mem_cons.mp (hperm.symm.subset List.mem_cons_self)).resolve_left (Ne.symm hne)
        have hcy : c ∈ ys := (List.mem_cons.mp (hperm.subset List.mem_cons_self)).resolve_left hne
        have hlt := hcs d hdx (hd.of_subset fun e he => hperm.subset he)
        have hgt := hds c hcy (hc.of_subset fun e he => hperm.symm.subset he)
        exact Int.lt_asymm hlt hgt
      rw [ih hxs hys hperm.cons_inv]

theorem congr (h : Dispatched link key xs)
    (hlink : ∀ c ∈ xs, ∀ d ∈ xs, c ≠ d → (link c d ↔ link' c d))
    (hkey : ∀ c ∈ xs, key c = key' c) : Dispatched link' key' xs := by
  induction xs with
  | nil => trivial
  | cons c rest ih =>
    obtain ⟨hready, hfirst, hrest⟩ := h
    refine ⟨?_, ?_, ?_⟩
    · intro e he hec
      by_contra hne
      exact hne (hready e he ((hlink e he c List.mem_cons_self hne).mpr hec))
    · intro d hd hdready
      rw [← hkey c List.mem_cons_self, ← hkey d (List.mem_cons_of_mem _ hd)]
      refine hfirst d hd fun e he hed => ?_
      by_contra hne
      exact hne (hdready e he ((hlink e he d (List.mem_cons_of_mem _ hd) hne).mp hed))
    · exact ih hrest
        (fun c hc d hd => hlink c (List.mem_cons_of_mem _ hc) d (List.mem_cons_of_mem _ hd))
        (fun c hc => hkey c (List.mem_cons_of_mem _ hc))

theorem map {f : δ → γ} {ds : List δ} (hf : ∀ c ∈ ds, ∀ d ∈ ds, f c = f d → c = d)
    (h : Dispatched (fun c d => link (f c) (f d)) (fun c => key (f c)) ds) :
    Dispatched link key (ds.map f) := by
  induction ds with
  | nil => trivial
  | cons c rest ih =>
    obtain ⟨hready, hfirst, hrest⟩ := h
    refine ⟨?_, ?_, ?_⟩
    · intro x hx hxc
      rw [← List.map_cons] at hx
      obtain ⟨e, he, rfl⟩ := List.mem_map.mp hx
      rw [hready e he hxc]
    · intro y hy hyready
      obtain ⟨d, hd, rfl⟩ := List.mem_map.mp hy
      refine hfirst d hd fun e he hed => ?_
      have hfe := List.mem_map_of_mem (f := f) he
      rw [List.map_cons] at hfe
      exact hf e he d (List.mem_cons_of_mem _ hd) (hyready (f e) hfe hed)
    · exact ih
        (fun c hc d hd => hf c (List.mem_cons_of_mem _ hc) d (List.mem_cons_of_mem _ hd)) hrest

end Dispatched

namespace Dispatched

variable [DecidableEq γ]

theorem idxOf_lt (h : Dispatched link key xs) (hc : c ∈ xs) (hd : d ∈ xs) (hlink : link c d)
    (hne : c ≠ d) : xs.idxOf c < xs.idxOf d := by
  have hcx := List.idxOf_lt_length_iff.mpr hc
  have hdx := List.idxOf_lt_length_iff.mpr hd
  rcases Nat.lt_trichotomy (xs.idxOf c) (xs.idxOf d) with hlt | heq | hgt
  · exact hlt
  · exact absurd ((List.idxOf_inj hc).mp heq) hne
  · refine absurd (List.pairwise_iff_getElem.mp h.forward _ _ hdx hcx hgt ?_) ?_
    · rwa [List.getElem_idxOf, List.getElem_idxOf]
    · rwa [List.getElem_idxOf, List.getElem_idxOf]

end Dispatched

/-- The head of any other order without links back is ready as well, so its key is greater. -/
theorem Dispatched.eq_or_lt (hx : Dispatched link key xs) (hperm : ys.Perm xs)
    (hy : ys.Pairwise fun c d => link d c → d = c) : ys = xs ∨ xs.map key < ys.map key := by
  induction xs generalizing ys with
  | nil => exact .inl (List.perm_nil.mp hperm)
  | cons c xs ih =>
    obtain ⟨_, hfirst, hxs⟩ := hx
    obtain _ | ⟨d, ys⟩ := ys
    · exact absurd hperm.length_eq (by simp)
    obtain ⟨hd, hys⟩ := List.pairwise_cons.mp hy
    by_cases hdc : d = c
    · subst hdc
      rcases ih hxs hperm.cons_inv hys with rfl | hlt
      · exact .inl rfl
      · exact .inr (List.cons_lt_cons_iff.mpr (.inr ⟨rfl, hlt⟩))
    · have hmem : d ∈ xs := by
        have hd := hperm.subset List.mem_cons_self
        exact (List.mem_cons.mp hd).resolve_left hdc
      have hready : Ready link (c :: xs) d := by
        intro e he hed
        rcases List.mem_cons.mp (hperm.symm.subset he) with rfl | he
        · rfl
        · exact hd e he hed
      exact .inr (List.cons_lt_cons_iff.mpr (.inl (hfirst d hmem hready)))

/-! ### Dispatches that end -/

def LinkWithin (link : γ → γ → Prop) (all : List γ) (c d : γ) : Prop :=
  c ∈ all ∧ d ∈ all ∧ c ≠ d ∧ link c d

/-- The item lies on a cycle of links or can be reached from one. -/
def Trapped (link : γ → γ → Prop) (all : List γ) (d : γ) : Prop :=
  ∃ c, Relation.TransGen (LinkWithin link all) c c ∧
    Relation.ReflTransGen (LinkWithin link all) c d

/-- Some items are listed, and every other one waits for one that is not listed either. -/
structure Dispatch (link : γ → γ → Prop) (key : γ → Int) (all order stuck : List γ) : Prop where
  perm : (order ++ stuck).Perm all
  dispatched : Dispatched link key order
  apart : ∀ c ∈ stuck, ∀ d ∈ order, ¬ link c d
  waits : ∀ d ∈ stuck, ∃ c ∈ stuck, link c d ∧ c ≠ d

namespace Dispatch

variable {all order stuck : List γ}

theorem nil (hwaits : ∀ d ∈ all, ∃ c ∈ all, link c d ∧ c ≠ d) : Dispatch link key all [] all where
  perm := .refl _
  dispatched := trivial
  apart := fun _ _ _ hd => absurd hd List.not_mem_nil
  waits := hwaits

theorem cons (hnodup : all.Nodup) (hperm : (c :: xs).Perm all) (hready : Ready link all c)
    (hfirst : ∀ d ∈ xs, Ready link all d → key c < key d)
    (h : Dispatch link key xs order stuck) : Dispatch link key all (c :: order) stuck := by
  have hall : (c :: order ++ stuck).Perm all := (h.perm.cons c).trans hperm
  have hsub : ∀ e ∈ c :: order, e ∈ all :=
    fun e he => hall.subset (List.mem_append_left stuck he)
  refine ⟨hall, ⟨hready.of_subset hsub, ?_, h.dispatched⟩, ?_, h.waits⟩
  · intro d hd hdready
    refine hfirst d (h.perm.subset (List.mem_append_left stuck hd)) fun e he hed => ?_
    rcases List.mem_append.mp (hall.symm.subset he) with he | he
    · exact hdready e he hed
    · exact absurd hed (h.apart e he d hd)
  · intro e he d hd hed
    rcases List.mem_cons.mp hd with rfl | hd
    · obtain rfl := hready e (hall.subset (List.mem_append_right _ he)) hed
      have hne := (List.nodup_append.mp (hall.nodup_iff.mpr hnodup)).2.2
      exact hne e List.mem_cons_self e he rfl
    · exact h.apart e he d hd hed

theorem congr (h : Dispatch link key all order stuck) (hnodup : all.Nodup)
    (hlink : ∀ c ∈ all, ∀ d ∈ all, c ≠ d → (link c d ↔ link' c d))
    (hkey : ∀ c ∈ all, key c = key' c) : Dispatch link' key' all order stuck := by
  have horder : ∀ d ∈ order, d ∈ all := fun d hd => h.perm.subset (List.mem_append_left _ hd)
  have hstuck : ∀ c ∈ stuck, c ∈ all := fun c hc => h.perm.subset (List.mem_append_right _ hc)
  refine ⟨h.perm, h.dispatched.congr ?_ ?_, ?_, ?_⟩
  · exact fun c hc d hd => hlink c (horder c hc) d (horder d hd)
  · exact fun c hc => hkey c (horder c hc)
  · intro c hc d hd hcd
    have hne : c ≠ d := by
      rintro rfl
      exact (List.nodup_append.mp (h.perm.nodup_iff.mpr hnodup)).2.2 c hd c hc rfl
    exact h.apart c hc d hd ((hlink c (hstuck c hc) d (horder d hd) hne).mpr hcd)
  · intro d hd
    obtain ⟨c, hc, hcd, hne⟩ := h.waits d hd
    exact ⟨c, hc, (hlink c (hstuck c hc) d (hstuck d hd) hne).mp hcd, hne⟩

theorem map {f : δ → γ} {all order stuck : List δ}
    (hf : ∀ c ∈ all, ∀ d ∈ all, f c = f d → c = d)
    (h : Dispatch (fun c d => link (f c) (f d)) (fun c => key (f c)) all order stuck) :
    Dispatch link key (all.map f) (order.map f) (stuck.map f) := by
  have horder : ∀ d ∈ order, d ∈ all := fun d hd => h.perm.subset (List.mem_append_left _ hd)
  have hstuck : ∀ c ∈ stuck, c ∈ all := fun c hc => h.perm.subset (List.mem_append_right _ hc)
  refine ⟨?_, ?_, ?_, ?_⟩
  · rw [← List.map_append]
    exact h.perm.map f
  · exact h.dispatched.map fun c hc d hd => hf c (horder c hc) d (horder d hd)
  · intro x hx y hy
    obtain ⟨c, hc, rfl⟩ := List.mem_map.mp hx
    obtain ⟨d, hd, rfl⟩ := List.mem_map.mp hy
    exact h.apart c hc d hd
  · intro y hy
    obtain ⟨d, hd, rfl⟩ := List.mem_map.mp hy
    obtain ⟨c, hc, hcd, hne⟩ := h.waits d hd
    exact ⟨f c, List.mem_map_of_mem hc, hcd,
      fun heq => hne (hf c (hstuck c hc) d (hstuck d hd) heq)⟩

variable (h : Dispatch link key all order stuck)

include h

theorem mem_iff : d ∈ all ↔ d ∈ order ∨ d ∈ stuck := by
  rw [← h.perm.mem_iff, List.mem_append]

/-- Every item that waits has a predecessor that waits. The items that are stuck without a cycle
behind them would go back forever, but they are finitely many. -/
theorem trapped_of_stuck (hd : d ∈ stuck) : Trapped link all d := by
  by_contra hfree
  let before : { c // c ∈ stuck ∧ ¬ Trapped link all c } →
      { c // c ∈ stuck ∧ ¬ Trapped link all c } → Prop :=
    fun c d => Relation.TransGen (LinkWithin link all) c.1 d.1
  have : Finite { c // c ∈ stuck ∧ ¬ Trapped link all c } :=
    ((List.finite_toSet stuck).subset fun c hc => hc.1).to_subtype
  have : IsTrans _ before := ⟨fun _ _ _ => Relation.TransGen.trans⟩
  have : Std.Irrefl before := ⟨fun c hcycle => c.2.2 ⟨c.1, hcycle, .refl⟩⟩
  obtain ⟨⟨d, hd, hfree⟩, -, hmin⟩ :=
    (Finite.wellFounded_of_trans_of_irrefl before).has_min Set.univ ⟨⟨d, hd, hfree⟩, trivial⟩
  obtain ⟨c, hc, hcd, hne⟩ := h.waits d hd
  have hstep : LinkWithin link all c d :=
    ⟨h.mem_iff.mpr (.inr hc), h.mem_iff.mpr (.inr hd), hne, hcd⟩
  have hcfree : ¬ Trapped link all c :=
    fun ⟨e, hcycle, hpath⟩ => hfree ⟨e, hcycle, hpath.tail hstep⟩
  exact hmin ⟨c, hc, hcfree⟩ trivial (.single hstep)

/-- The predecessors of a listed item are listed before it. -/
theorem before_of_linkWithin [DecidableEq γ] (hstep : LinkWithin link all c d) (hd : d ∈ order) :
    c ∈ order ∧ order.idxOf c < order.idxOf d := by
  obtain ⟨hc, _, hne, hlink⟩ := hstep
  have hmem : c ∈ order := (h.mem_iff.mp hc).resolve_right fun hstuck => h.apart c hstuck d hd hlink
  exact ⟨hmem, h.dispatched.idxOf_lt hmem hd hlink hne⟩

theorem before_of_path [DecidableEq γ] (hpath : Relation.TransGen (LinkWithin link all) c d)
    (hd : d ∈ order) : c ∈ order ∧ order.idxOf c < order.idxOf d := by
  induction hpath using Relation.TransGen.head_induction_on with
  | single hstep => exact h.before_of_linkWithin hstep hd
  | head hstep _ ih =>
    obtain ⟨hc, hlt⟩ := h.before_of_linkWithin hstep ih.1
    exact ⟨hc, Nat.lt_trans hlt ih.2⟩

theorem not_trapped_of_listed (hd : d ∈ order) : ¬ Trapped link all d := by
  classical
  rintro ⟨c, hcycle, hpath⟩
  have hc : c ∈ order := by
    rcases Relation.reflTransGen_iff_eq_or_transGen.mp hpath with rfl | hpath
    · exact hd
    · exact (h.before_of_path hpath hd).1
  exact Nat.lt_irrefl _ (h.before_of_path hcycle hc).2

theorem mem_order_iff : d ∈ order ↔ d ∈ all ∧ ¬ Trapped link all d := by
  constructor
  · intro hd
    exact ⟨h.mem_iff.mpr (.inl hd), h.not_trapped_of_listed hd⟩
  · intro hd
    exact (h.mem_iff.mp hd.1).resolve_right fun hstuck => hd.2 (h.trapped_of_stuck hstuck)

theorem perm_of_not_trapped (hfree : ∀ d ∈ all, ¬ Trapped link all d) : order.Perm all := by
  have hstuck : stuck = [] := List.eq_nil_iff_forall_not_mem.mpr fun d hd =>
    hfree d (h.mem_iff.mpr (.inr hd)) (h.trapped_of_stuck hd)
  have hperm := h.perm
  rwa [hstuck, List.append_nil] at hperm

end Dispatch

theorem linkWithin_congr (hmem : ∀ c, c ∈ xs ↔ c ∈ ys) :
    LinkWithin link xs = LinkWithin link ys := by
  funext c d
  simp only [LinkWithin, hmem]

theorem trapped_congr (hmem : ∀ c, c ∈ xs ↔ c ∈ ys) : Trapped link xs d ↔ Trapped link ys d := by
  simp only [Trapped, linkWithin_congr hmem]

/-- How the items are enumerated makes no difference. -/
theorem Dispatch.unique {order order' stuck stuck' : List γ} (h : Dispatch link key xs order stuck)
    (h' : Dispatch link key ys order' stuck') (hperm : xs.Perm ys) : order = order' := by
  refine h.dispatched.unique h'.dispatched ?_
  rw [List.perm_ext_iff_of_nodup h.dispatched.nodup h'.dispatched.nodup]
  intro c
  rw [h.mem_order_iff, h'.mem_order_iff, hperm.mem_iff, trapped_congr fun d => hperm.mem_iff]

end Causality
