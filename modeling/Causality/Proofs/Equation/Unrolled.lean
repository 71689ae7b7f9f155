import Causality.Proofs.Equation.Unrolling
import Causality.Proofs.Expr.Elements

/-!
# Equations met in unrolling

What is met when loops are unrolled: the equation itself, what is met in a body of a choice, and
what is met in the body of a loop with a value of the range in the place of the index. Expansion
succeeds only if it does on everything that is met, and loses no expression.
-/

namespace Causality

namespace Equation

/-- The second equation is met when the loops of the first one are unrolled. -/
inductive Reaches : Equation → Equation → Prop
  | self (e : Equation) : Reaches e e
  | round {index : String} {start stop step : Int} {body : List Equation} {e f : Equation}
    (k : Nat)
    (hrange : if 0 < step then start + k * step ≤ stop else stop ≤ start + k * step)
    (he : e ∈ body) (hf : Reaches (e.instantiate index (start + k * step)) f) :
    Reaches (loop index start stop step body) f
  | inside {kind : ChoiceKind} {branches : List Branch} {otherwise : Option (List Equation)}
    {body : List Equation} {e f : Equation} (hbody : body ∈ bodiesOf branches otherwise)
    (he : e ∈ body) (hf : Reaches e f) : Reaches (choice kind branches otherwise) f

/-- The sides or the conditions of an equation, without those of the equations inside. -/
def heads : Equation → List Expr
  | simple lhs rhs => [lhs, rhs]
  | loop _ _ _ _ _ => []
  | choice _ branches _ => branches.map (·.condition)

/-- The expression stands in the equation once its loops are unrolled, as a side or as a condition.
In an expression from a loop, a value from the range has taken the place of the index. -/
def Unrolls (e : Equation) (x : Expr) : Prop := ∃ f, e.Reaches f ∧ x ∈ f.heads

variable {label : String} {e f : Equation} {es body : List Equation} {ls parts : List Labelled}
  {branches : List Branch} {otherwise : Option (List Equation)} {x : Expr}

/-! ### One step of the expansion -/

theorem exists_mem_numbered (label : String) (k : Nat) (he : e ∈ body) :
    ∃ l ∈ numbered label k body, l.equation = e := by
  obtain ⟨i, hi⟩ := List.mem_iff_getElem?.mp he
  have hmem : (e, k + i) ∈ body.zipIdx k := List.mk_add_mem_zipIdx_iff_getElem?.mpr hi
  exact ⟨_, List.mem_map_of_mem hmem, rfl⟩

/-- What each of the equations expands to is part of what they expand to one after the other. -/
theorem expand_of_expandEach (h : expandEach parts = .ok ls) {l : Labelled} (hl : l ∈ parts) :
    ∃ part, l.equation.expand l.label = .ok part ∧ ∀ r ∈ part, r ∈ ls := by
  simp only [expandEach, bind_eq_ok, pure_eq_ok, mapM_eq_ok] at h
  obtain ⟨results, hresults, rfl⟩ := h
  obtain ⟨part, hpart, hexpand⟩ := Forall₂.exists_right hresults hl
  exact ⟨part, hexpand, fun r hr => List.mem_flatten.mpr ⟨part, hpart, hr⟩⟩

theorem expand_of_expandBody (h : expandBody body = .ok es) (he : e ∈ body) :
    ∃ label part, e.expand label = .ok part ∧ ∀ r ∈ part, r.equation ∈ es := by
  simp only [expandBody, bind_eq_ok, pure_eq_ok] at h
  obtain ⟨ls, hls, rfl⟩ := h
  obtain ⟨l, hl, rfl⟩ := exists_mem_numbered "" 0 he
  obtain ⟨part, hpart, hmem⟩ := expand_of_expandEach hls hl
  exact ⟨l.label, part, hpart, fun r hr => List.mem_map_of_mem (hmem r hr)⟩

/-- A choice keeps its conditions and its bodies, each of them expanded. -/
theorem expand_choice_eq_ok {kind : ChoiceKind} :
    (choice kind branches otherwise).expand label = .ok ls ↔
      ∃ bs, List.Forall₂ (fun b b' => b.expand = .ok b') branches bs ∧
        ∃ os, otherwise.mapM expandBody = .ok os ∧ [⟨label, .choice kind bs os⟩] = ls := by
  simp only [expand_choice, bind_eq_ok, pure_eq_ok, mapM_eq_ok]

theorem expand_bodies {bs : List Branch} {os : Option (List Equation)}
    (hbs : List.Forall₂ (fun b b' => b.expand = .ok b') branches bs)
    (hos : otherwise.mapM expandBody = .ok os) (hbody : body ∈ bodiesOf branches otherwise) :
    ∃ body' ∈ bodiesOf bs os, expandBody body = .ok body' := by
  rcases List.mem_append.mp hbody with hbody | hbody
  · obtain ⟨b, hb, rfl⟩ := List.mem_map.mp hbody
    obtain ⟨b', hb', hexpand⟩ := Forall₂.exists_right hbs hb
    simp only [Branch.expand, bind_eq_ok, pure_eq_ok] at hexpand
    obtain ⟨condition, _, body', hbody', rfl⟩ := hexpand
    exact ⟨body', List.mem_append_left _ (List.mem_map_of_mem hb'), hbody'⟩
  · cases otherwise with
    | none => cases hbody
    | some otherwise =>
      obtain rfl := List.mem_singleton.mp hbody
      simp only [Option.mapM_some, map_eq_pure_bind, bind_eq_ok, pure_eq_ok] at hos
      obtain ⟨body', hbody', rfl⟩ := hos
      exact ⟨body', List.mem_append_right _ List.mem_cons_self, hbody'⟩

/-! ### The whole expansion -/

theorem mem_values_upTo {start stop step : Int} (hstep : step ≠ 0) (k : Nat)
    (hrange : if 0 < step then start + k * step ≤ stop else stop ≤ start + k * step) :
    start + k * step ∈ (Progression.upTo start stop step).values :=
  List.mem_map_of_mem (List.mem_range.mpr ((Progression.lt_count_upTo hstep k).mpr hrange))

/-- Each round of an expanded loop has a label, and its equations expand to part of the result. -/
theorem expand_round {index : String} {start stop step : Int}
    (h : (loop index start stop step body).expand label = .ok ls) {i : Int}
    (hi : i ∈ (Progression.upTo start stop step).values) :
    step ≠ 0 ∧ (body = [] ∨ Causality.isWritable i = true) ∧ ∀ e ∈ body, ∃ label part,
      (e.instantiate index i).expand label = .ok part ∧ ∀ r ∈ part, r ∈ ls := by
  have hstep : step ≠ 0 := by
    rintro rfl
    cases h
  rw [expand_loop hstep] at h
  simp only [expandRounds, written, bind_eq_ok, pure_eq_ok, mapM_eq_ok] at h
  obtain ⟨rounds, hrounds, rfl⟩ := h
  obtain ⟨round, hround, _, ⟨text, htext, rfl⟩, hexpand⟩ := Forall₂.exists_right hrounds hi
  refine ⟨hstep, (roundLabel_eq_ok.mp htext).1, fun e he => ?_⟩
  obtain ⟨l, hl, hequation⟩ := exists_mem_numbered text 0 (List.mem_map_of_mem he)
  obtain ⟨part, hpart, hmem⟩ := expand_of_expandEach hexpand hl
  rw [hequation] at hpart
  exact ⟨l.label, part, hpart, fun r hr => List.mem_flatten.mpr ⟨round, hround, hmem r hr⟩⟩

/-- Whatever is met in unrolling an equation that can be expanded can be expanded itself, and the
expressions that this comes to are among those of the whole. -/
theorem Reaches.expands (h : e.Reaches f) (hls : e.expand label = .ok ls) :
    ∃ label part, f.expand label = .ok part ∧ ∀ r ∈ part, ∀ z ∈ r.equation.exprs,
      ∃ l ∈ ls, z ∈ l.equation.exprs := by
  induction h generalizing label ls with
  | self e => exact ⟨label, ls, hls, fun r hr z hz => ⟨r, hr, hz⟩⟩
  | @round index start stop step body e f k hrange he _ ih =>
    have hstep : step ≠ 0 := by
      rintro rfl
      cases hls
    obtain ⟨_, _, hround⟩ := expand_round hls (mem_values_upTo hstep k hrange)
    obtain ⟨_, part, hpart, hmem⟩ := hround e he
    obtain ⟨label', part', hpart', hexprs⟩ := ih hpart
    refine ⟨label', part', hpart', fun r hr z hz => ?_⟩
    obtain ⟨l, hl, hz⟩ := hexprs r hr z hz
    exact ⟨l, hmem l hl, hz⟩
  | inside hbody he _ ih =>
    obtain ⟨bs, hbs, os, hos, rfl⟩ := expand_choice_eq_ok.mp hls
    obtain ⟨body', hbody', hexpand⟩ := expand_bodies hbs hos hbody
    obtain ⟨_, part, hpart, hmem⟩ := expand_of_expandBody hexpand he
    obtain ⟨label', part', hpart', hexprs⟩ := ih hpart
    refine ⟨label', part', hpart', fun r hr z hz => ⟨_, List.mem_cons_self, ?_⟩⟩
    obtain ⟨l, hl, hz⟩ := hexprs r hr z hz
    exact mem_exprs_choice.mpr (.inr ⟨body', hbody', l.equation, hmem l hl, hz⟩)

theorem exists_scalar_of_heads (hls : e.expand label = .ok ls) (hx : x ∈ e.heads) :
    ∃ l ∈ ls, ∃ z ∈ l.equation.exprs, x.scalar Substitution.none = .ok z := by
  cases e with
  | simple lhs rhs =>
    simp only [expand, expandUnder, bind_eq_ok, pure_eq_ok] at hls
    obtain ⟨l, hl, r, hr, rfl⟩ := hls
    refine ⟨_, List.mem_cons_self, ?_⟩
    rcases List.mem_pair.mp hx with rfl | rfl
    · exact ⟨l, List.mem_cons_self, hl⟩
    · exact ⟨r, List.mem_cons_of_mem _ List.mem_cons_self, hr⟩
  | loop index start stop step body => cases hx
  | choice kind branches otherwise =>
    obtain ⟨bs, hbs, _, _, rfl⟩ := expand_choice_eq_ok.mp hls
    obtain ⟨b, hb, rfl⟩ := List.mem_map.mp hx
    obtain ⟨b', hb', hexpand⟩ := Forall₂.exists_right hbs hb
    simp only [Branch.expand, bind_eq_ok, pure_eq_ok] at hexpand
    obtain ⟨condition, hcondition, body, _, rfl⟩ := hexpand
    refine ⟨_, List.mem_cons_self, condition, ?_, hcondition⟩
    exact mem_exprs_choice.mpr (.inl (List.mem_map_of_mem hb'))

/-- Every expression of the unrolled equation has a scalar form in what the equation expands to. -/
theorem Unrolls.exists_scalar (h : e.Unrolls x) (hls : e.expand label = .ok ls) :
    ∃ l ∈ ls, ∃ z ∈ l.equation.exprs, x.scalar Substitution.none = .ok z := by
  obtain ⟨f, hf, hx⟩ := h
  obtain ⟨_, part, hpart, hexprs⟩ := hf.expands hls
  obtain ⟨r, hr, z, hz, hscalar⟩ := exists_scalar_of_heads hpart hx
  obtain ⟨l, hl, hz⟩ := hexprs r hr z hz
  exact ⟨l, hl, z, hz, hscalar⟩

end Equation

end Causality
