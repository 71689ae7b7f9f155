import Causality.Proofs.Equation.Nodes

/-!
# Places of equations

Equations inside an equation are told apart by their places, which lead there from outside. What
belongs together inside an equation is a part of it: simple equations, and the choices around these.
-/

namespace Causality

/-- An equation inside another one. Its place leads there from outside: each number counts the
equations in all bodies of the one around. -/
structure Placed where
  place : List Nat
  equation : Equation

namespace Placed

def within (k : Nat) (p : Placed) : Placed := ⟨k :: p.place, p.equation⟩

def isSimple (p : Placed) : Bool := p.equation.isSimple

end Placed

mutual

/-- The equation and all equations inside, in the order of `nodes`. -/
def Equation.placed : Equation → List Placed
  | .simple lhs rhs => [⟨[], .simple lhs rhs⟩]
  | .loop index start stop step body =>
    ⟨[], .loop index start stop step body⟩ :: Equation.placedFrom 0 body
  | .choice kind branches none =>
    ⟨[], .choice kind branches none⟩ :: Branch.placedFrom 0 branches
  | .choice kind branches (some otherwise) =>
    ⟨[], .choice kind branches (some otherwise)⟩ ::
      (Branch.placedFrom 0 branches ++
        Equation.placedFrom (branches.flatMap (·.body)).length otherwise)
termination_by structural e => e

/-- The equations in a list of which the first has the number `k`. -/
def Equation.placedFrom (k : Nat) : List Equation → List Placed
  | [] => []
  | e :: rest => (Equation.placed e).map (Placed.within k) ++ Equation.placedFrom (k + 1) rest
termination_by structural es => es

def Branch.placedFrom (k : Nat) : List Branch → List Placed
  | [] => []
  | .mk _ body :: rest => Equation.placedFrom k body ++ Branch.placedFrom (k + body.length) rest
termination_by structural bs => bs

end

variable {e : Equation} {es : List Equation} {p : Placed} {whole whole' part part' : List Placed}

/-! ### Places -/

theorem Equation.placedFrom_append (k : Nat) (es es' : List Equation) :
    Equation.placedFrom k (es ++ es') =
      Equation.placedFrom k es ++ Equation.placedFrom (k + es.length) es' := by
  induction es generalizing k with
  | nil => rfl
  | cons e rest ih =>
    rw [List.cons_append, Equation.placedFrom, Equation.placedFrom, ih, List.append_assoc,
      List.length_cons, Nat.add_assoc, Nat.add_comm 1]

theorem Branch.placedFrom_eq (k : Nat) (bs : List Branch) :
    Branch.placedFrom k bs = Equation.placedFrom k (bs.flatMap (·.body)) := by
  induction bs generalizing k with
  | nil => rfl
  | cons b rest ih =>
    obtain ⟨condition, body⟩ := b
    rw [Branch.placedFrom, ih, List.flatMap_cons, Equation.placedFrom_append, Branch.body]

namespace Equation

theorem placed_choice (kind : ChoiceKind) (branches : List Branch)
    (otherwise : Option (List Equation)) : (choice kind branches otherwise).placed =
      ⟨[], choice kind branches otherwise⟩ ::
        placedFrom 0 (bodiesOf branches otherwise).flatten := by
  cases otherwise with
  | none => simp [placed, bodiesOf, Branch.placedFrom_eq, List.flatMap_def]
  | some otherwise =>
    simp [placed, bodiesOf, Branch.placedFrom_eq, List.flatMap_def, placedFrom_append]

theorem placed_loop (index : String) (start stop step : Int) (body : List Equation) :
    (loop index start stop step body).placed =
      ⟨[], loop index start stop step body⟩ :: placedFrom 0 body := by rw [placed]

theorem map_equation_placedFrom (h : ∀ e ∈ es, e.placed.map (·.equation) = e.nodes) (k : Nat) :
    (placedFrom k es).map (·.equation) = nodesAll es := by
  induction es generalizing k with
  | nil => rfl
  | cons e rest ih =>
    rw [List.forall_mem_cons] at h
    rw [placedFrom, List.map_append, ih h.2, List.map_map, nodesAll, ← h.1]
    rfl

theorem map_equation_placed (e : Equation) : e.placed.map (·.equation) = e.nodes := by
  induction e using Equation.inductionOn with
  | simple lhs rhs => rfl
  | loop index start stop step body ih =>
    rw [placed_loop, List.map_cons, map_equation_placedFrom ih, nodes]
  | choice kind branches otherwise ih =>
    rw [placed_choice, List.map_cons, map_equation_placedFrom, nodes_choice, nodesAll_eq,
      List.flatten_eq_flatMap, List.flatMap_assoc]
    · rw [funext nodesAll_eq]
      rfl
    · intro e he
      obtain ⟨body, hbody, he⟩ := List.mem_flatten.mp he
      exact ih body hbody e he

theorem mem_placedFrom {k : Nat} : p ∈ placedFrom k es ↔
    ∃ i e, es[i]? = some e ∧ ∃ q ∈ placed e, q.within (k + i) = p := by
  induction es generalizing k with
  | nil => simp [placedFrom]
  | cons e rest ih =>
    rw [placedFrom, List.mem_append, List.mem_map, ih]
    constructor
    · rintro (hfirst | ⟨i, e', he', hmem⟩)
      · exact ⟨0, e, rfl, hfirst⟩
      · exact ⟨i + 1, e', he', by rwa [← Nat.add_assoc, Nat.add_right_comm]⟩
    · rintro ⟨i, e', he', hmem⟩
      cases i with
      | zero =>
        obtain rfl : e = e' := Option.some.inj he'
        exact .inl hmem
      | succ i => exact .inr ⟨i, e', he', by rwa [Nat.add_right_comm, Nat.add_assoc]⟩

/-- The first number of a place tells the equations of a list apart. -/
theorem place_of_mem_placedFrom {k : Nat} (h : p ∈ placedFrom k es) :
    ∃ j inner, p.place = j :: inner ∧ k ≤ j ∧ j < k + es.length := by
  obtain ⟨i, e, he, q, _, rfl⟩ := mem_placedFrom.mp h
  obtain ⟨hlt, _⟩ := List.getElem?_eq_some_iff.mp he
  exact ⟨k + i, q.place, rfl, Nat.le_add_right _ _, Nat.add_lt_add_left hlt k⟩

theorem within_mem_placedFrom {i : Nat} (he : es[i]? = some e) :
    p.within i ∈ placedFrom 0 es ↔ p ∈ e.placed := by
  rw [mem_placedFrom]
  constructor
  · rintro ⟨j, e', he', q, hq, heq⟩
    rw [Placed.within, Placed.within, Placed.mk.injEq, List.cons.injEq, Nat.zero_add] at heq
    obtain ⟨⟨rfl, hplace⟩, hequation⟩ := heq
    obtain rfl := Option.some.inj (he.symm.trans he')
    obtain ⟨place, equation⟩ := p
    obtain ⟨place', equation'⟩ := q
    obtain rfl : place' = place := hplace
    obtain rfl : equation' = equation := hequation
    exact hq
  · intro hp
    exact ⟨i, e, he, p, hp, by rw [Nat.zero_add]⟩

/-- The place of what is further inside continues the place of what is around it. -/
def Composes (e : Equation) : Prop := ∀ c ∈ e.placed, ∀ p : Placed,
  ⟨c.place ++ p.place, p.equation⟩ ∈ e.placed ↔ p ∈ c.equation.placed

theorem composes_of_placed (hwhole : e.placed = ⟨[], e⟩ :: placedFrom 0 es)
    (h : ∀ inner ∈ es, inner.Composes) : e.Composes := by
  intro c hc p
  rw [hwhole] at hc ⊢
  rcases List.mem_cons.mp hc with rfl | hc
  · rw [← hwhole]
    exact Iff.rfl
  · obtain ⟨i, inner, hi, c, hinner, rfl⟩ := mem_placedFrom.mp hc
    let q : Placed := ⟨c.place ++ p.place, p.equation⟩
    have hroot : q.within (0 + i) ≠ ⟨[], e⟩ := fun h => by cases congrArg Placed.place h
    have hstep : q.within (0 + i) ∈ placedFrom 0 es ↔ q ∈ inner.placed := by
      rw [Nat.zero_add]
      exact within_mem_placedFrom hi
    have hrest := h inner (List.mem_of_getElem? hi) c hinner p
    exact List.mem_cons.trans ((or_iff_right hroot).trans (hstep.trans hrest))

theorem append_mem_placed (e : Equation) : ∀ c ∈ e.placed, ∀ p : Placed,
    ⟨c.place ++ p.place, p.equation⟩ ∈ e.placed ↔ p ∈ c.equation.placed := by
  change e.Composes
  induction e using Equation.inductionOn with
  | simple lhs rhs => exact composes_of_placed rfl (List.forall_mem_nil _)
  | loop index start stop step body ih => exact composes_of_placed (placed_loop _ _ _ _ _) ih
  | choice kind branches otherwise ih =>
    refine composes_of_placed (placed_choice kind branches otherwise) fun e he => ?_
    obtain ⟨body, hbody, he⟩ := List.mem_flatten.mp he
    exact ih body hbody e he

end Equation

/-- No equation of one list is inside one of the other. -/
def Placed.Unrelated (whole whole' : List Placed) : Prop :=
  ∀ p ∈ whole, ∀ q ∈ whole', ¬ p.place <+: q.place ∧ ¬ q.place <+: p.place

namespace Equation

theorem unrelated_placedFrom (k : Nat) (es es' : List Equation) :
    Placed.Unrelated (placedFrom k es) (placedFrom (k + es.length) es') := by
  intro p hp q hq
  obtain ⟨i, inner, hi, _, hlt⟩ := place_of_mem_placedFrom hp
  obtain ⟨j, inner', hj, hle, _⟩ := place_of_mem_placedFrom hq
  rw [hi, hj, List.cons_prefix_cons, List.cons_prefix_cons]
  exact ⟨fun h => by omega, fun h => by omega⟩

theorem unrelated_first (k : Nat) (e : Equation) (rest : List Equation) :
    Placed.Unrelated (e.placed.map (Placed.within k)) (placedFrom (k + 1) rest) := by
  have h := unrelated_placedFrom k [e] rest
  rwa [placedFrom, placedFrom, List.append_nil] at h

theorem nodup_placedFrom (h : ∀ e ∈ es, (e.placed.map (·.place)).Nodup) (k : Nat) :
    ((placedFrom k es).map (·.place)).Nodup := by
  induction es generalizing k with
  | nil => exact List.nodup_nil
  | cons e rest ih =>
    rw [List.forall_mem_cons] at h
    rw [placedFrom, List.map_append, List.map_map, List.nodup_append]
    refine ⟨?_, ih h.2 (k + 1), ?_⟩
    · have hmap : e.placed.map ((·.place) ∘ Placed.within k) =
          (e.placed.map (·.place)).map (k :: ·) := by
        rw [List.map_map]
        rfl
      rw [hmap]
      exact h.1.map List.cons_injective
    · rintro _ hp _ hq rfl
      obtain ⟨p, hp, hplace⟩ := List.mem_map.mp hp
      obtain ⟨q, hq, hplace'⟩ := List.mem_map.mp hq
      have hunrelated := unrelated_first k e rest _ (List.mem_map_of_mem hp) q hq
      exact hunrelated.1 ⟨[], by rw [List.append_nil, hplace']; exact hplace⟩

theorem nodup_of_placed (hwhole : e.placed = ⟨[], e⟩ :: placedFrom 0 es)
    (h : ∀ inner ∈ es, (inner.placed.map (·.place)).Nodup) :
    (e.placed.map (·.place)).Nodup := by
  rw [hwhole]
  refine List.nodup_cons.mpr ⟨fun hmem => ?_, nodup_placedFrom h 0⟩
  obtain ⟨p, hp, hplace⟩ := List.mem_map.mp hmem
  obtain ⟨j, inner, hcons, _⟩ := place_of_mem_placedFrom hp
  cases hplace.symm.trans hcons

theorem nodup_placed (e : Equation) : (e.placed.map (·.place)).Nodup := by
  induction e using Equation.inductionOn with
  | simple lhs rhs => exact List.nodup_singleton _
  | loop index start stop step body ih => exact nodup_of_placed (placed_loop _ _ _ _ _) ih
  | choice kind branches otherwise ih =>
    refine nodup_of_placed (placed_choice kind branches otherwise) fun e he => ?_
    obtain ⟨body, hbody, he⟩ := List.mem_flatten.mp he
    exact ih body hbody e he

end Equation

/-! ### Parts -/

/-- Equations inside an equation: with each of them all that are around it, and besides simple ones
only such as are around a simple one. -/
structure Placed.IsPart (whole part : List Placed) : Prop where
  sublist : part.Sublist whole
  enclosing : ∀ q ∈ part, ∀ c ∈ whole, c.place <+: q.place → c ∈ part
  grounded : ∀ c ∈ part, ∃ q ∈ part, q.isSimple = true ∧ c.place <+: q.place

namespace Placed.IsPart

theorem nil (whole : List Placed) : IsPart whole [] where
  sublist := List.nil_sublist whole
  enclosing := List.forall_mem_nil _
  grounded := List.forall_mem_nil _

theorem append (h : IsPart whole part) (h' : IsPart whole' part')
    (hunrelated : Unrelated whole whole') : IsPart (whole ++ whole') (part ++ part') where
  sublist := h.sublist.append h'.sublist
  enclosing q hq c hc hplace := by
    rw [List.mem_append] at hq hc ⊢
    rcases hq with hq | hq <;> rcases hc with hc | hc
    · exact .inl (h.enclosing q hq c hc hplace)
    · exact absurd hplace (hunrelated q (h.sublist.subset hq) c hc).2
    · exact absurd hplace (hunrelated c hc q (h'.sublist.subset hq)).1
    · exact .inr (h'.enclosing q hq c hc hplace)
  grounded c hc := by
    rcases List.mem_append.mp hc with hc | hc
    · obtain ⟨q, hq, hground⟩ := h.grounded c hc
      exact ⟨q, List.mem_append_left _ hq, hground⟩
    · obtain ⟨q, hq, hground⟩ := h'.grounded c hc
      exact ⟨q, List.mem_append_right _ hq, hground⟩

theorem within (h : IsPart whole part) (k : Nat) :
    IsPart (whole.map (Placed.within k)) (part.map (Placed.within k)) where
  sublist := h.sublist.map _
  enclosing := by
    rw [List.forall_mem_map]
    intro q hq
    rw [List.forall_mem_map]
    intro c hc hplace
    exact List.mem_map_of_mem (h.enclosing q hq c hc (List.cons_prefix_cons.mp hplace).2)
  grounded := by
    rw [List.forall_mem_map]
    intro c hc
    obtain ⟨q, hq, hsimple, hplace⟩ := h.grounded c hc
    exact ⟨q.within k, List.mem_map_of_mem hq, hsimple, List.cons_prefix_cons.mpr ⟨rfl, hplace⟩⟩

theorem cons (h : IsPart whole part) (hwhole : ∀ w ∈ whole, w.place ≠ []) (hpart : part ≠ [])
    (e : Equation) : IsPart (⟨[], e⟩ :: whole) (⟨[], e⟩ :: part) where
  sublist := h.sublist.cons_cons _
  enclosing q hq c hc hplace := by
    rcases List.mem_cons.mp hc with rfl | hc
    · exact List.mem_cons_self
    · rcases List.mem_cons.mp hq with rfl | hq
      · exact absurd (List.prefix_nil.mp hplace) (hwhole c hc)
      · exact List.mem_cons_of_mem _ (h.enclosing q hq c hc hplace)
  grounded := by
    obtain ⟨p, hp⟩ := List.exists_mem_of_ne_nil part hpart
    obtain ⟨q, hq, hsimple, _⟩ := h.grounded p hp
    refine List.forall_mem_cons.mpr ⟨⟨q, List.mem_cons_of_mem _ hq, hsimple, List.nil_prefix⟩, ?_⟩
    intro c hc
    obtain ⟨q, hq, hground⟩ := h.grounded c hc
    exact ⟨q, List.mem_cons_of_mem _ hq, hground⟩

end Placed.IsPart

end Causality
