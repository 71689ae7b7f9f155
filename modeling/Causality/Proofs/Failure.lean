import Causality.Proofs.Fallible

/-!
# How operations fail

An operation fails with faults of a certain kind only if each of its steps does.
-/

namespace Causality

variable {ε α β : Type} {P Q : ε → Prop} {x : Except ε α} {fault : ε}

theorem bind_eq_error {f : α → Except ε β} :
    x >>= f = .error fault ↔ x = .error fault ∨ ∃ a, x = .ok a ∧ f a = .error fault := by
  cases x <;> simp [bind, Except.bind]

theorem map_eq_error {f : α → β} : x.map f = .error fault ↔ x = .error fault := by
  cases x <;> simp [Except.map]

theorem mapM_eq_error {f : α → Except ε β} {xs : List α} (h : xs.mapM f = .error fault) :
    ∃ a ∈ xs, f a = .error fault := by
  induction xs with
  | nil => cases h
  | cons a rest ih =>
    rw [List.mapM_cons, bind_eq_error] at h
    obtain ha | ⟨_, _, h⟩ := h
    · exact ⟨a, List.mem_cons_self, ha⟩
    · obtain hrest | ⟨_, _, h⟩ := bind_eq_error.mp h
      · obtain ⟨b, hb, hfault⟩ := ih hrest
        exact ⟨b, List.mem_cons_of_mem _ hb, hfault⟩
      · cases h

theorem forM_eq_error {f : α → Except ε Unit} {xs : List α} (h : xs.forM f = .error fault) :
    ∃ a ∈ xs, f a = .error fault := by
  induction xs with
  | nil => cases h
  | cons a rest ih =>
    have hcons : (a :: rest).forM f = f a >>= fun _ => rest.forM f := rfl
    rw [hcons, bind_eq_error] at h
    obtain ha | ⟨_, _, hrest⟩ := h
    · exact ⟨a, List.mem_cons_self, ha⟩
    · obtain ⟨b, hb, hfault⟩ := ih hrest
      exact ⟨b, List.mem_cons_of_mem _ hb, hfault⟩

/-- Whatever fault the operation ends with has `P`. -/
structure FailsOnly (P : ε → Prop) (x : Except ε α) : Prop where
  of_error : ∀ fault, x = .error fault → P fault

namespace FailsOnly

theorem ok (a : α) : FailsOnly P (.ok a : Except ε α) := by
  constructor
  intro fault h
  cases h

theorem pure (a : α) : FailsOnly P (Pure.pure a : Except ε α) := ok a

theorem error (h : P fault) : FailsOnly P (.error fault : Except ε α) := by
  constructor
  intro fault' h'
  rwa [← Except.error.inj h']

theorem imp (h : FailsOnly P x) (hPQ : ∀ fault, P fault → Q fault) : FailsOnly Q x :=
  ⟨fun fault hfault => hPQ fault (h.of_error fault hfault)⟩

theorem bind {f : α → Except ε β} (h : FailsOnly P x) (hf : ∀ a, x = .ok a → FailsOnly P (f a)) :
    FailsOnly P (x >>= f) := by
  constructor
  intro fault hfault
  obtain hx | ⟨a, ha, hfault⟩ := bind_eq_error.mp hfault
  · exact h.of_error fault hx
  · exact (hf a ha).of_error fault hfault

theorem ok_bind {f : α → Except ε β} {a : α} (h : FailsOnly P (f a)) :
    FailsOnly P (.ok a >>= f) := h

theorem map {f : α → β} (h : FailsOnly P x) : FailsOnly P (x.map f) :=
  ⟨fun fault hfault => h.of_error fault (map_eq_error.mp hfault)⟩

theorem mapM {f : α → Except ε β} {xs : List α} (h : ∀ a ∈ xs, FailsOnly P (f a)) :
    FailsOnly P (xs.mapM f) := by
  constructor
  intro fault hfault
  obtain ⟨a, ha, hfault⟩ := mapM_eq_error hfault
  exact (h a ha).of_error fault hfault

theorem forM {f : α → Except ε Unit} {xs : List α} (h : ∀ a ∈ xs, FailsOnly P (f a)) :
    FailsOnly P (xs.forM f) := by
  constructor
  intro fault hfault
  obtain ⟨a, ha, hfault⟩ := forM_eq_error hfault
  exact (h a ha).of_error fault hfault

/-- The operation succeeds or ends with one of these faults. -/
theorem succeeds_or (h : FailsOnly P x) :
    (∃ a, x = .ok a) ∨ ∃ fault, x = .error fault ∧ P fault := by
  cases x with
  | ok a => exact .inl ⟨a, rfl⟩
  | error fault => exact .inr ⟨fault, rfl, h.of_error fault rfl⟩

end FailsOnly

end Causality
