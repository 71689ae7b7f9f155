import Mathlib.Data.List.Forall2
import Mathlib.Data.List.Nodup
import Mathlib.Data.List.Perm.Subperm

/-!
# Operations that may fail

When a sequence of operations succeeds, and what is known of the results then.
-/

namespace Causality

variable {ε α β : Type}

theorem bind_eq_ok {x : Except ε α} {f : α → Except ε β} {b : β} :
    x >>= f = .ok b ↔ ∃ a, x = .ok a ∧ f a = .ok b := by
  cases x <;> simp [bind, Except.bind]

theorem pure_eq_ok {a b : α} : (pure a : Except ε α) = .ok b ↔ a = b := by
  simp [pure, Except.pure]

theorem map_eq_ok {x : Except ε α} {f : α → β} {b : β} :
    x.map f = .ok b ↔ ∃ a, x = .ok a ∧ f a = b := by
  cases x <;> simp [Except.map]

theorem mapM_eq_ok {f : α → Except ε β} {xs : List α} {ys : List β} :
    xs.mapM f = .ok ys ↔ List.Forall₂ (fun x y => f x = .ok y) xs ys := by
  induction xs generalizing ys with
  | nil =>
    rw [List.mapM_nil, pure_eq_ok, List.forall₂_nil_left_iff]
    exact eq_comm
  | cons x xs ih =>
    simp only [List.mapM_cons, bind_eq_ok, pure_eq_ok, List.forall₂_cons_left_iff]
    constructor
    · rintro ⟨y, hy, zs, hzs, rfl⟩
      exact ⟨y, zs, hy, ih.mp hzs, rfl⟩
    · rintro ⟨y, zs, hy, hzs, rfl⟩
      exact ⟨y, hy, zs, ih.mpr hzs, rfl⟩

theorem mapM_eq_ok_map {f : α → Except ε β} {g : α → β} {xs : List α}
    (h : ∀ x ∈ xs, f x = .ok (g x)) : xs.mapM f = .ok (xs.map g) := by
  rw [mapM_eq_ok, List.forall₂_map_right_iff, List.forall₂_same]
  exact h

theorem mapM_eq_ok_iff {f : α → Except ε β} {P : α → Prop} {g : α → β} {xs : List α}
    {ys : List β} (h : ∀ x ∈ xs, ∀ y, f x = .ok y ↔ P x ∧ y = g x) :
    xs.mapM f = .ok ys ↔ (∀ x ∈ xs, P x) ∧ ys = xs.map g := by
  induction xs generalizing ys with
  | nil => simp [pure, Except.pure, eq_comm]
  | cons x xs ih =>
    rw [List.forall_mem_cons] at h
    simp only [List.mapM_cons, bind_eq_ok, pure_eq_ok, h.1, ih h.2, List.forall_mem_cons,
      List.map_cons]
    constructor
    · rintro ⟨_, ⟨hx, rfl⟩, _, ⟨hxs, rfl⟩, rfl⟩
      exact ⟨⟨hx, hxs⟩, rfl⟩
    · rintro ⟨⟨hx, hxs⟩, rfl⟩
      exact ⟨_, ⟨hx, rfl⟩, _, ⟨hxs, rfl⟩, rfl⟩

theorem exists_forall₂ {R : α → β → Prop} {xs : List α} (h : ∀ x ∈ xs, ∃ y, R x y) :
    ∃ ys, List.Forall₂ R xs ys := by
  induction xs with
  | nil => exact ⟨[], .nil⟩
  | cons x xs ih =>
    rw [List.forall_mem_cons] at h
    obtain ⟨y, hy⟩ := h.1
    obtain ⟨ys, hys⟩ := ih h.2
    exact ⟨y :: ys, .cons hy hys⟩

theorem forM_eq_ok {f : α → Except ε Unit} {xs : List α} :
    xs.forM f = .ok () ↔ ∀ x ∈ xs, f x = .ok () := by
  induction xs with
  | nil => simp [List.forM, pure, Except.pure]
  | cons x xs ih =>
    have hcons : (x :: xs).forM f = f x >>= fun _ => xs.forM f := rfl
    rw [hcons, bind_eq_ok, List.forall_mem_cons, ← ih]
    constructor
    · rintro ⟨_, hx, hxs⟩
      exact ⟨hx, hxs⟩
    · rintro ⟨hx, hxs⟩
      exact ⟨(), hx, hxs⟩

theorem Forall₂.exists_left {R : α → β → Prop} {xs : List α} {ys : List β}
    (h : List.Forall₂ R xs ys) {y : β} (hy : y ∈ ys) : ∃ x ∈ xs, R x y := by
  induction h with
  | nil => cases hy
  | @cons x z xs ys hxz _ ih =>
    rcases List.mem_cons.mp hy with rfl | hy
    · exact ⟨x, List.mem_cons_self, hxz⟩
    · obtain ⟨w, hw, hwy⟩ := ih hy
      exact ⟨w, List.mem_cons_of_mem _ hw, hwy⟩

theorem Forall₂.exists_right {R : α → β → Prop} {xs : List α} {ys : List β}
    (h : List.Forall₂ R xs ys) {x : α} (hx : x ∈ xs) : ∃ y ∈ ys, R x y :=
  Forall₂.exists_left h.flip hx

theorem Forall₂.imp_of_mem {R S : α → β → Prop} {xs : List α} {ys : List β}
    (h : List.Forall₂ R xs ys) (hS : ∀ x ∈ xs, ∀ y ∈ ys, R x y → S x y) :
    List.Forall₂ S xs ys := by
  induction h with
  | nil => exact .nil
  | cons hxy _ ih =>
    refine .cons (hS _ List.mem_cons_self _ List.mem_cons_self hxy) (ih fun x hx y hy => ?_)
    exact hS x (List.mem_cons_of_mem _ hx) y (List.mem_cons_of_mem _ hy)

theorem Forall₂.exists_append {R : α → β → Prop} {xs xs' : List α} {ys : List β}
    (h : List.Forall₂ R (xs ++ xs') ys) :
    ∃ zs zs', ys = zs ++ zs' ∧ List.Forall₂ R xs zs ∧ List.Forall₂ R xs' zs' := by
  induction xs generalizing ys with
  | nil => exact ⟨[], ys, rfl, .nil, h⟩
  | cons x xs ih =>
    cases h with
    | cons hxy h =>
      obtain ⟨zs, zs', rfl, hzs, hzs'⟩ := ih h
      exact ⟨_ :: zs, zs', rfl, .cons hxy hzs, hzs'⟩

theorem Forall₂.append {R : α → β → Prop} {xs xs' : List α} {ys ys' : List β}
    (h : List.Forall₂ R xs ys) (h' : List.Forall₂ R xs' ys') :
    List.Forall₂ R (xs ++ xs') (ys ++ ys') := by
  induction h with
  | nil => exact h'
  | cons hxy _ ih => exact .cons hxy ih

theorem Forall₂.exists_middle {γ : Type} {R : α → β → Prop} {S : β → γ → Prop} {xs : List α}
    {zs : List γ} (h : List.Forall₂ (fun x z => ∃ y, R x y ∧ S y z) xs zs) :
    ∃ ys, List.Forall₂ R xs ys ∧ List.Forall₂ S ys zs := by
  induction h with
  | nil => exact ⟨[], .nil, .nil⟩
  | cons hxz _ ih =>
    obtain ⟨y, hxy, hyz⟩ := hxz
    obtain ⟨ys, hxs, hzs⟩ := ih
    exact ⟨y :: ys, .cons hxy hxs, .cons hyz hzs⟩

theorem Forall₂.comp {γ : Type} {R : α → β → Prop} {S : β → γ → Prop} {xs : List α}
    {ys : List β} {zs : List γ} (h : List.Forall₂ R xs ys) (h' : List.Forall₂ S ys zs) :
    List.Forall₂ (fun x z => ∃ y, R x y ∧ S y z) xs zs := by
  induction h generalizing zs with
  | nil =>
    cases h'
    exact .nil
  | cons hxy _ ih =>
    cases h' with
    | cons hyz hzs => exact .cons ⟨_, hxy, hyz⟩ (ih hzs)

/-- Where each step can be followed from a related source, all of them can. -/
theorem Forall₂.exists_results {α' β' : Type} {R : α → α' → Prop} {S : β → β' → Prop}
    {F : α → β → Prop} {F' : α' → β' → Prop} {xs : List α} {xs' : List α'} {ys : List β}
    (h : List.Forall₂ R xs xs') (hys : List.Forall₂ F xs ys)
    (hstep : ∀ x x' y, x' ∈ xs' → R x x' → F x y → ∃ y', F' x' y' ∧ S y y') :
    ∃ ys', List.Forall₂ F' xs' ys' ∧ List.Forall₂ S ys ys' := by
  induction h generalizing ys with
  | nil =>
    cases hys
    exact ⟨[], .nil, .nil⟩
  | cons hxx' _ ih =>
    cases hys with
    | cons hxy hys =>
      obtain ⟨y', hy', hyy'⟩ := hstep _ _ _ List.mem_cons_self hxx' hxy
      obtain ⟨ys', hys', hall⟩ := ih hys fun x x' y hx' => hstep x x' y (List.mem_cons_of_mem _ hx')
      exact ⟨y' :: ys', .cons hy' hys', .cons hyy' hall⟩

theorem Forall₂.map_eq {γ : Type} {f : α → γ} {g : β → γ} {xs : List α} {ys : List β}
    (h : List.Forall₂ (fun x y => f x = g y) xs ys) : xs.map f = ys.map g := by
  rwa [← List.forall₂_eq_eq_eq, List.forall₂_map_left_iff, List.forall₂_map_right_iff]

theorem Forall₂.of_map_eq {γ : Type} {f : α → γ} {g : β → γ} {xs : List α} {ys : List β}
    (h : xs.map f = ys.map g) : List.Forall₂ (fun x y => f x = g y) xs ys := by
  rwa [← List.forall₂_eq_eq_eq, List.forall₂_map_left_iff, List.forall₂_map_right_iff] at h

theorem Forall₂.flatten {R : α → β → Prop} {xss : List (List α)} {yss : List (List β)}
    (h : List.Forall₂ (List.Forall₂ R) xss yss) : List.Forall₂ R xss.flatten yss.flatten := by
  induction h with
  | nil => exact .nil
  | cons hxy _ ih => exact Forall₂.append hxy ih

theorem Forall₂.zipIdx {R : α → β → Prop} {xs : List α} {ys : List β}
    (h : List.Forall₂ R xs ys) (k : Nat) :
    List.Forall₂ (fun p q => R p.1 q.1 ∧ p.2 = q.2) (xs.zipIdx k) (ys.zipIdx k) := by
  induction h generalizing k with
  | nil => exact .nil
  | cons hxy _ ih => exact .cons ⟨hxy, rfl⟩ (ih (k + 1))

theorem Forall₂.any_eq {p : α → Bool} {q : β → Bool} {xs : List α} {ys : List β}
    (h : List.Forall₂ (fun x y => p x = q y) xs ys) : xs.any p = ys.any q := by
  induction h with
  | nil => rfl
  | cons hxy _ ih => rw [List.any_cons, List.any_cons, hxy, ih]

theorem Forall₂.filter_map_eq {γ : Type} {p : α → Bool} {q : β → Bool} {f : α → γ} {g : β → γ}
    {xs : List α} {ys : List β} (h : List.Forall₂ (fun x y => p x = q y ∧ f x = g y) xs ys) :
    (xs.filter p).map f = (ys.filter q).map g := by
  induction h with
  | nil => rfl
  | cons hxy _ ih =>
    obtain ⟨hpq, hfg⟩ := hxy
    rw [List.filter_cons, List.filter_cons, hpq]
    split_ifs
    · rw [List.map_cons, List.map_cons, hfg, ih]
    · exact ih

theorem Forall₂.find?_map_eq {γ : Type} {p : α → Bool} {q : β → Bool} {f : α → γ} {g : β → γ}
    {xs : List α} {ys : List β} (h : List.Forall₂ (fun x y => p x = q y ∧ f x = g y) xs ys) :
    (xs.find? p).map f = (ys.find? q).map g := by
  rw [← List.head?_filter, ← List.head?_filter, ← List.head?_map, ← List.head?_map,
    Forall₂.filter_map_eq h]

/-- What holds of any two sources in order passes on to the results. -/
theorem Forall₂.pairwise {R : α → β → Prop} {P : α → α → Prop} {Q : β → β → Prop}
    {xs : List α} {ys : List β} (h : List.Forall₂ R xs ys)
    (hQ : ∀ x x' y y', R x y → R x' y' → P x x' → Q y y') (hP : xs.Pairwise P) :
    ys.Pairwise Q := by
  induction h with
  | nil => exact .nil
  | @cons x y xs ys hxy hall ih =>
    rw [List.pairwise_cons] at hP ⊢
    refine ⟨fun z hz => ?_, ih hP.2⟩
    obtain ⟨w, hw, hwz⟩ := Forall₂.exists_left hall hz
    exact hQ x w y z hxy hwz (hP.1 w hw)

/-- Different elements that are each related to one of `ys`, and to different ones. -/
theorem exists_subperm {R : α → β → Prop} {xs : List α} {ys : List β} (hn : xs.Nodup)
    (h : ∀ x ∈ xs, ∃ y ∈ ys, R x y)
    (hinj : ∀ x ∈ xs, ∀ x' ∈ xs, ∀ y, R x y → R x' y → x = x') :
    ∃ zs, List.Forall₂ R xs zs ∧ zs.Subperm ys := by
  have hmem : ∀ x ∈ xs, ∃ y, x ∈ xs ∧ y ∈ ys ∧ R x y := by
    intro x hx
    obtain ⟨y, hy, hxy⟩ := h x hx
    exact ⟨y, hx, hy, hxy⟩
  obtain ⟨zs, hzs⟩ := exists_forall₂ hmem
  have hnodup : zs.Nodup := by
    apply Forall₂.pairwise hzs ?_ hn
    rintro x x' y y' ⟨hx, _, hxy⟩ ⟨hx', _, hxy'⟩ hne rfl
    exact hne (hinj x hx x' hx' y hxy hxy')
  refine ⟨zs, hzs.imp fun _ _ hxy => hxy.2.2, hnodup.subperm fun z hz => ?_⟩
  obtain ⟨x, _, _, hz, _⟩ := Forall₂.exists_left hzs hz
  exact hz

end Causality
