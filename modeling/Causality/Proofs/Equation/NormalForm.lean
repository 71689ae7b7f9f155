import Causality.Proofs.Expr.Faults
import Causality.Proofs.Model.Names

/-!
# Equations that are expanded

Expansion unrolls loops and resolves subscripts, and splitting leaves no array outside of
reductions, provided that no array is named like an element of another variable. On what results,
expansion and splitting change nothing.
-/

namespace Causality

mutual

/-- There is no loop left, and every expression is plain. -/
def Equation.Expanded : Equation → Prop
  | .simple lhs rhs => lhs.Plain ∧ rhs.Plain
  | .loop _ _ _ _ _ => False
  | .choice _ branches none => Branch.ExpandedAll branches
  | .choice _ branches (some otherwise) =>
    Branch.ExpandedAll branches ∧ Equation.ExpandedAll otherwise
termination_by structural e => e

def Equation.ExpandedAll : List Equation → Prop
  | [] => True
  | e :: rest => Equation.Expanded e ∧ Equation.ExpandedAll rest
termination_by structural es => es

def Branch.ExpandedAll : List Branch → Prop
  | [] => True
  | .mk condition body :: rest =>
    condition.Plain ∧ Equation.ExpandedAll body ∧ Branch.ExpandedAll rest
termination_by structural bs => bs

end

mutual

/-- No simple equation relates arrays. Without a branch, a choice is not looked into. -/
def Equation.Separate (vars : List Variable) : Equation → Prop
  | .simple lhs rhs => arraysOf vars lhs rhs = []
  | .loop _ _ _ _ _ => True
  | .choice _ branches none => Branch.SeparateAll vars branches
  | .choice _ branches (some otherwise) =>
    branches = [] ∨ Branch.SeparateAll vars branches ∧ Equation.SeparateAll vars otherwise
termination_by structural e => e

def Equation.SeparateAll (vars : List Variable) : List Equation → Prop
  | [] => True
  | e :: rest => Equation.Separate vars e ∧ Equation.SeparateAll vars rest
termination_by structural es => es

def Branch.SeparateAll (vars : List Variable) : List Branch → Prop
  | [] => True
  | .mk _ body :: rest => Equation.SeparateAll vars body ∧ Branch.SeparateAll vars rest
termination_by structural bs => bs

end

variable {vars : List Variable} {σ : Substitution} {label : String} {ls : List Labelled}

theorem Equation.expandedAll_iff {es : List Equation} :
    Equation.ExpandedAll es ↔ ∀ e ∈ es, e.Expanded := by
  induction es with
  | nil => simp [Equation.ExpandedAll]
  | cons e rest ih => rw [Equation.ExpandedAll, ih, List.forall_mem_cons]

theorem Equation.separateAll_iff {es : List Equation} :
    Equation.SeparateAll vars es ↔ ∀ e ∈ es, e.Separate vars := by
  induction es with
  | nil => simp [Equation.SeparateAll]
  | cons e rest ih => rw [Equation.SeparateAll, ih, List.forall_mem_cons]

theorem expandedAll_equations :
    Equation.ExpandedAll (ls.map (·.equation)) ↔ ∀ l ∈ ls, l.equation.Expanded := by
  rw [Equation.expandedAll_iff, List.forall_mem_map]

/-! ### Expansion -/

mutual

theorem Equation.expandUnder_expanded (e : Equation) (σ : Substitution) (label : String)
    (ls : List Labelled) (h : e.expandUnder σ label = .ok ls) :
    ∀ l ∈ ls, l.equation.Expanded := by
  match e with
  | .simple lhs rhs =>
    simp only [Equation.expandUnder, bind_eq_ok, pure_eq_ok] at h
    obtain ⟨x, hx, y, hy, rfl⟩ := h
    intro l hl
    obtain rfl := List.mem_singleton.mp hl
    exact ⟨Expr.scalar_plain hx, Expr.scalar_plain hy⟩
  | .loop index start stop step body =>
    unfold Equation.expandUnder at h
    split at h
    · cases h
    · simp only [Progression.mapM_eq, bind_eq_ok, pure_eq_ok, mapM_eq_ok] at h
      obtain ⟨rounds, hrounds, rfl⟩ := h
      intro l hl
      obtain ⟨round, hround, hl⟩ := List.mem_flatten.mp hl
      obtain ⟨i, _, _, _, hi⟩ := Forall₂.exists_left hrounds hround
      exact Equation.expandAll_expanded body _ _ 0 round hi l hl
  | .choice kind branches none =>
    simp only [Equation.expandUnder, bind_eq_ok, pure_eq_ok] at h
    obtain ⟨bs, hbs, rfl⟩ := h
    intro l hl
    obtain rfl := List.mem_singleton.mp hl
    have hexpanded := Branch.expandAll_expanded branches σ bs hbs
    exact hexpanded
  | .choice kind branches (some otherwise) =>
    simp only [Equation.expandUnder, bind_eq_ok, pure_eq_ok] at h
    obtain ⟨bs, hbs, es, hes, rfl⟩ := h
    intro l hl
    obtain rfl := List.mem_singleton.mp hl
    have hexpanded := Equation.expandAll_expanded otherwise σ "" 0 es hes
    exact ⟨Branch.expandAll_expanded branches σ bs hbs, expandedAll_equations.mpr hexpanded⟩
termination_by structural e

theorem Equation.expandAll_expanded (es : List Equation) (σ : Substitution) (label : String)
    (k : Nat) (ls : List Labelled) (h : Equation.expandAll σ label k es = .ok ls) :
    ∀ l ∈ ls, l.equation.Expanded := by
  match es with
  | [] =>
    obtain rfl := Except.ok.inj h
    exact List.forall_mem_nil _
  | e :: rest =>
    simp only [Equation.expandAll, bind_eq_ok, pure_eq_ok] at h
    obtain ⟨first, hfirst, others, hothers, rfl⟩ := h
    rw [List.forall_mem_append]
    exact ⟨Equation.expandUnder_expanded e σ _ first hfirst,
      Equation.expandAll_expanded rest σ label (k + 1) others hothers⟩
termination_by structural es

theorem Branch.expandAll_expanded (bs : List Branch) (σ : Substitution) (rs : List Branch)
    (h : Branch.expandAll σ bs = .ok rs) : Branch.ExpandedAll rs := by
  match bs with
  | [] =>
    obtain rfl := Except.ok.inj h
    trivial
  | .mk condition body :: rest =>
    simp only [Branch.expandAll, bind_eq_ok, pure_eq_ok] at h
    obtain ⟨c, hc, es, hes, others, hothers, rfl⟩ := h
    have hbody := Equation.expandAll_expanded body σ "" 0 es hes
    exact ⟨Expr.scalar_plain hc, expandedAll_equations.mpr hbody,
      Branch.expandAll_expanded rest σ others hothers⟩
termination_by structural bs

end

mutual

theorem Equation.Expanded.expandUnder_eq (e : Equation) (he : e.Expanded) (label : String) :
    e.expandUnder Substitution.none label = .ok [⟨label, e⟩] := by
  match e with
  | .simple lhs rhs =>
    rw [Equation.expandUnder, he.1.scalar_none, he.2.scalar_none]
    rfl
  | .loop index start stop step body => exact absurd he id
  | .choice kind branches none =>
    rw [Equation.expandUnder, Branch.ExpandedAll.expandAll_eq branches he]
    rfl
  | .choice kind branches (some otherwise) =>
    obtain ⟨ls, hls, hequations⟩ := Equation.ExpandedAll.expandAll_eq otherwise he.2 "" 0
    rw [Equation.expandUnder, Branch.ExpandedAll.expandAll_eq branches he.1, hls, ← hequations]
    rfl
termination_by structural e

theorem Equation.ExpandedAll.expandAll_eq (es : List Equation) (hes : Equation.ExpandedAll es)
    (label : String) (k : Nat) : ∃ ls, Equation.expandAll Substitution.none label k es = .ok ls ∧
      ls.map (·.equation) = es := by
  match es with
  | [] => exact ⟨[], rfl, rfl⟩
  | e :: rest =>
    obtain ⟨ls, hls, hequations⟩ := Equation.ExpandedAll.expandAll_eq rest hes.2 label (k + 1)
    refine ⟨⟨label ++ "." ++ toString k, e⟩ :: ls, ?_, ?_⟩
    · rw [Equation.expandAll, Equation.Expanded.expandUnder_eq e hes.1, hls]
      rfl
    · rw [List.map_cons, hequations]
termination_by structural es

theorem Branch.ExpandedAll.expandAll_eq (bs : List Branch) (hbs : Branch.ExpandedAll bs) :
    Branch.expandAll Substitution.none bs = .ok bs := by
  match bs with
  | [] => rfl
  | .mk condition body :: rest =>
    obtain ⟨ls, hls, hequations⟩ := Equation.ExpandedAll.expandAll_eq body hbs.2.1 "" 0
    rw [Branch.expandAll, hbs.1.scalar_none, hls, Branch.ExpandedAll.expandAll_eq rest hbs.2.2,
      ← hequations]
    rfl
termination_by structural bs

end

/-! ### Splitting -/

mutual

theorem Equation.Separate.split_eq (e : Equation) (he : e.Separate vars) (label : String) :
    e.split vars label = .ok [⟨label, e⟩] := by
  match e with
  | .simple lhs rhs =>
    have harrays : arraysOf vars lhs rhs = [] := he
    rw [Equation.split, splitSimple, harrays]
  | .loop index start stop step body => rfl
  | .choice kind branches none =>
    rw [Equation.split, Branch.SeparateAll.splitAll_eq branches he]
    rfl
  | .choice kind branches (some otherwise) =>
    unfold Equation.split
    rcases he with rfl | he
    · rfl
    · rw [Branch.SeparateAll.splitAll_eq branches he.1,
        Equation.SeparateAll.splitAll_eq otherwise he.2]
      split <;> rfl
termination_by structural e

theorem Equation.SeparateAll.splitAll_eq (es : List Equation)
    (hes : Equation.SeparateAll vars es) (label : String) :
    Equation.splitAll vars label es = .ok es := by
  match es with
  | [] => rfl
  | e :: rest =>
    rw [Equation.splitAll, Equation.Separate.split_eq e hes.1,
      Equation.SeparateAll.splitAll_eq rest hes.2]
    rfl
termination_by structural es

theorem Branch.SeparateAll.splitAll_eq (bs : List Branch) (hbs : Branch.SeparateAll vars bs)
    (label : String) : Branch.splitAll vars label bs = .ok bs := by
  match bs with
  | [] => rfl
  | .mk condition body :: rest =>
    rw [Branch.splitAll, Equation.SeparateAll.splitAll_eq body hbs.1,
      Branch.SeparateAll.splitAll_eq rest hbs.2]
    rfl
termination_by structural bs

end

def ArraysApart (vars : List Variable) : Prop :=
  ∀ v ∈ vars, v.isArray = true → ∀ u ∈ vars, u.name ≠ v.name → v.name ∉ u.elementNames

theorem mem_arraysOf {lhs rhs : Expr} {name : String} {shape : List Whole} :
    (name, shape) ∈ arraysOf vars lhs rhs ↔
      name ∈ lhs.elementwiseNames ++ rhs.elementwiseNames ∧
        ∃ v, declaredAs? vars name = some v ∧ v.shape = some shape := by
  simp only [arraysOf, List.mem_filterMap, List.mem_eraseDups, Option.bind_eq_some_iff,
    Option.map_eq_some_iff, Prod.mk.injEq]
  constructor
  · intro h
    obtain ⟨_, hn, v, hv, shape, hshape, rfl, rfl⟩ := h
    exact ⟨hn, v, hv, hshape⟩
  · intro h
    obtain ⟨hn, v, hv, hshape⟩ := h
    exact ⟨name, hn, v, hv, shape, hshape, rfl, rfl⟩

theorem declaredAs?_eq_some {name : String} {v : Variable} (h : declaredAs? vars name = some v) :
    v ∈ vars ∧ v.name = name :=
  ⟨List.mem_of_find?_eq_some h, by simpa using List.find?_some h⟩

theorem declaredAs?_eq_none {name : String} :
    declaredAs? vars name = none ↔ ∀ v ∈ vars, v.name ≠ name := by
  rw [declaredAs?, List.find?_eq_none]
  simp only [decide_eq_true_eq, ne_eq]

theorem elementName_ne (name : String) (indices : List Int) : elementName name indices ≠ name := by
  intro h
  have hlength := congrArg String.length h
  simp only [elementName, String.length_append] at hlength
  have hbracket : "[".length = 1 := rfl
  omega

/-- What is left after elements have taken the place of the arrays relates no arrays. -/
theorem Variable.extents_of_shape {v : Variable} {shape : List Whole} (h : v.shape = some shape) :
    v.extents = some ((shapeExtents shape).map Int.toNat) := by
  simp [extents, h, shapeExtents, Function.comp_def]

theorem arraysOf_elementwise {lhs rhs l r : Expr} {shape : List Whole} {indices : List Int}
    (hvars : ArraysApart vars)
    (hshapes : ∀ p ∈ arraysOf vars lhs rhs, shapeExtents p.2 = shapeExtents shape)
    (hindices : indices ∈ rowMajor ((shapeExtents shape).map Int.toNat))
    (hl : Expr.Elementwise ((arraysOf vars lhs rhs).map (·.1)) indices lhs l)
    (hr : Expr.Elementwise ((arraysOf vars lhs rhs).map (·.1)) indices rhs r) :
    arraysOf vars l r = [] := by
  apply List.eq_nil_iff_forall_not_mem.mpr
  intro p hp
  obtain ⟨hname, v, hv, hshape⟩ := mem_arraysOf.mp hp
  rw [hl.names, hr.names, ← List.map_append] at hname
  obtain ⟨n, hn, helement⟩ := List.mem_map.mp hname
  unfold Expr.elementOr at helement
  by_cases harray : ((arraysOf vars lhs rhs).map (·.1)).contains n = true
  · rw [if_pos harray] at helement
    obtain ⟨⟨m, other⟩, hother, rfl⟩ := List.mem_map.mp (List.contains_iff_mem.mp harray)
    obtain ⟨_, u, hu, hushape⟩ := mem_arraysOf.mp hother
    obtain ⟨humem, rfl⟩ := declaredAs?_eq_some hu
    obtain ⟨hvmem, hvname⟩ := declaredAs?_eq_some hv
    have hisArray : v.isArray = true := by simp [Variable.isArray, hshape]
    have hne : u.name ≠ v.name := by
      rw [hvname, ← helement]
      exact (elementName_ne _ _).symm
    apply hvars v hvmem hisArray u humem hne
    have hextents : u.extents = some ((shapeExtents shape).map Int.toNat) := by
      rw [Variable.extents_of_shape hushape, hshapes _ hother]
    rw [hvname, ← helement, Variable.elementNames_of_array hextents]
    exact List.mem_map_of_mem hindices
  · rw [if_neg harray] at helement
    apply harray
    rw [List.contains_iff_mem, List.mem_map]
    exact ⟨(n, p.2), mem_arraysOf.mpr ⟨hn, v, helement ▸ hv, hshape⟩, rfl⟩

theorem splitSimple_separate {lhs rhs : Expr} (hl : lhs.Plain) (hr : rhs.Plain)
    (h : splitSimple vars label lhs rhs = .ok ls) :
    ∀ l ∈ ls, l.equation.Expanded ∧ (ArraysApart vars → l.equation.Separate vars) := by
  unfold splitSimple at h
  split at h
  · next harrays =>
    obtain rfl := Except.ok.inj h
    intro l hmem
    obtain rfl := List.mem_singleton.mp hmem
    exact ⟨⟨hl, hr⟩, fun _ => harrays⟩
  · next first shape others harrays =>
    dsimp only at h
    by_cases hany : (others.any fun p => decide (shapeExtents p.2 ≠ shapeExtents shape)) = true
    · rw [if_pos hany] at h
      cases h
    rw [if_neg hany] at h
    have hshapes : ∀ p ∈ arraysOf vars lhs rhs, shapeExtents p.2 = shapeExtents shape := by
      rw [harrays, List.forall_mem_cons]
      exact ⟨rfl, by simpa using hany⟩
    split at h
    · cases h
    rw [← harrays] at h
    intro l hmem
    obtain ⟨indices, hindices, hl'⟩ := Forall₂.exists_left (mapM_eq_ok.mp h) hmem
    simp only [bind_eq_ok, pure_eq_ok] at hl'
    obtain ⟨x, hx, y, hy, rfl⟩ := hl'
    have hlx := Expr.Plain.elementwise lhs hl hx
    have hry := Expr.Plain.elementwise rhs hr hy
    exact ⟨⟨hlx.plain, hry.plain⟩,
      fun hvars => arraysOf_elementwise hvars hshapes hindices hlx hry⟩

mutual

theorem Equation.split_separate (e : Equation) (he : e.Expanded) (label : String)
    (ls : List Labelled) (h : e.split vars label = .ok ls) :
    ∀ l ∈ ls, l.equation.Expanded ∧ (ArraysApart vars → l.equation.Separate vars) := by
  match e with
  | .simple lhs rhs => exact splitSimple_separate he.1 he.2 h
  | .loop index start stop step body => exact absurd he id
  | .choice kind branches none =>
    simp only [Equation.split, bind_eq_ok, pure_eq_ok] at h
    obtain ⟨bs, hbs, rfl⟩ := h
    intro l hl
    obtain rfl := List.mem_singleton.mp hl
    have hsplit := Branch.splitAll_separate branches he label bs hbs
    exact hsplit
  | .choice kind branches (some otherwise) =>
    unfold Equation.split at h
    by_cases hempty : branches.isEmpty = true
    · rw [if_pos hempty] at h
      obtain rfl := Except.ok.inj h
      intro l hl
      obtain rfl := List.mem_singleton.mp hl
      exact ⟨he, fun _ => .inl (List.isEmpty_iff.mp hempty)⟩
    · rw [if_neg hempty] at h
      simp only [bind_eq_ok, pure_eq_ok] at h
      obtain ⟨bs, hbs, es, hes, rfl⟩ := h
      intro l hl
      obtain rfl := List.mem_singleton.mp hl
      have hsplit := Branch.splitAll_separate branches he.1 label bs hbs
      have hotherwise := Equation.splitAll_separate otherwise he.2 label es hes
      exact ⟨⟨hsplit.1, hotherwise.1⟩, fun hvars => .inr ⟨hsplit.2 hvars, hotherwise.2 hvars⟩⟩
termination_by structural e

theorem Equation.splitAll_separate (es : List Equation) (hes : Equation.ExpandedAll es)
    (label : String) (rs : List Equation) (h : Equation.splitAll vars label es = .ok rs) :
    Equation.ExpandedAll rs ∧ (ArraysApart vars → Equation.SeparateAll vars rs) := by
  match es with
  | [] =>
    obtain rfl := Except.ok.inj h
    exact ⟨trivial, fun _ => trivial⟩
  | e :: rest =>
    simp only [Equation.splitAll, bind_eq_ok, pure_eq_ok] at h
    obtain ⟨first, hfirst, others, hothers, rfl⟩ := h
    have hsplit := Equation.split_separate e hes.1 label first hfirst
    have hrest := Equation.splitAll_separate rest hes.2 label others hothers
    rw [Equation.expandedAll_iff, Equation.separateAll_iff] at hrest ⊢
    simp only [List.forall_mem_append, List.forall_mem_map]
    exact ⟨⟨fun l hl => (hsplit l hl).1, hrest.1⟩,
      fun hvars => ⟨fun l hl => (hsplit l hl).2 hvars, hrest.2 hvars⟩⟩
termination_by structural es

theorem Branch.splitAll_separate (bs : List Branch) (hbs : Branch.ExpandedAll bs)
    (label : String) (rs : List Branch) (h : Branch.splitAll vars label bs = .ok rs) :
    Branch.ExpandedAll rs ∧ (ArraysApart vars → Branch.SeparateAll vars rs) := by
  match bs with
  | [] =>
    obtain rfl := Except.ok.inj h
    exact ⟨trivial, fun _ => trivial⟩
  | .mk condition body :: rest =>
    simp only [Branch.splitAll, bind_eq_ok, pure_eq_ok] at h
    obtain ⟨es, hes, others, hothers, rfl⟩ := h
    have hbody := Equation.splitAll_separate body hbs.2.1 label es hes
    have hrest := Branch.splitAll_separate rest hbs.2.2 label others hothers
    exact ⟨⟨hbs.1, hbody.1, hrest.1⟩, fun hvars => ⟨hbody.2 hvars, hrest.2 hvars⟩⟩
termination_by structural bs

end

/-! ### Declared equations -/

/-- An expanded equation as it is declared again expands to itself. -/
theorem Draft.expandEquation_of_expanded {d : Draft} {e : Equation} (he : e.Expanded)
    (hs : e.Separate d.vars) (label : String) : d.expandEquation label e = .ok [⟨label, e⟩] := by
  rw [Draft.expandEquation, Equation.expand, Equation.Expanded.expandUnder_eq e he]
  simp [bind, Except.bind, Equation.Separate.split_eq e hs, pure, Except.pure]

theorem Draft.expandSection_expanded {d : Draft} {s : Section} (h : d.expandSection s = .ok ls) :
    ∀ l ∈ ls, l.equation.Expanded ∧ (ArraysApart d.vars → l.equation.Separate d.vars) := by
  simp only [Draft.expandSection, Draft.expandEquation, bind_eq_ok, pure_eq_ok, mapM_eq_ok] at h
  obtain ⟨parts, hparts, rfl⟩ := h
  intro l hl
  obtain ⟨part, hpart, hl⟩ := List.mem_flatten.mp hl
  obtain ⟨⟨e, i⟩, _, expanded, hexpanded, rounds, hrounds, rfl⟩ := Forall₂.exists_left hparts hpart
  obtain ⟨round, hround, hl⟩ := List.mem_flatten.mp hl
  obtain ⟨k, hk, hsplit⟩ := Forall₂.exists_left hrounds hround
  have hplain := Equation.expandUnder_expanded e _ _ expanded hexpanded k hk
  exact Equation.split_separate k.equation hplain _ round hsplit l hl

end Causality
