import Causality.Proofs.Model.Outcome

/-!
# Subscripts within shapes

A reference with subscripts is checked after it was flattened to the name of an element. It passes
if the array has this element, and in two more cases: the name is declared itself, or the name of
the array has a bracket and what stands before the bracket is not declared. Every other reference
with subscripts to a declared variable makes a draft fail.
-/

namespace Causality

variable {vars : List Variable} {d : Draft} {m : Model} {v w : Variable} {s : Section}
  {label name : String} {e : Equation} {lhs rhs x : Expr} {ls : List Labelled}
  {subscripts : List Expr} {indices : List Int}

/-! ### Names that stay -/

theorem exists_mem_rowMajor {extents : List Nat} (h : ∀ n ∈ extents, 1 ≤ n) :
    ∃ is, is ∈ rowMajor extents := by
  induction extents with
  | nil => exact ⟨[], List.mem_singleton_self _⟩
  | cons n rest ih =>
    obtain ⟨hn, hrest⟩ := List.forall_mem_cons.mp h
    obtain ⟨is, his⟩ := ih hrest
    refine ⟨1 :: is, mem_rowMajor.mpr ?_⟩
    rw [withinExtents, mem_rowMajor.mp his]
    simp only [Bool.and_true, Bool.and_eq_true, decide_eq_true_eq]
    omega

theorem splitSimple_keeps (hname : ∀ v ∈ vars, v.name ≠ name)
    (h : splitSimple vars label lhs rhs = .ok ls) (hx : x ∈ [lhs, rhs])
    (hnode : .var name ∈ x.nodes) :
    ∃ l ∈ ls, ∃ y ∈ l.equation.exprs, .var name ∈ y.nodes := by
  obtain ⟨hsplits, _⟩ := splitSimple_eq_ok.mp h
  cases hsplits with
  | whole => exact ⟨_, List.mem_cons_self, x, hx, hnode⟩
  | elements shape hne hshapes hls =>
    obtain ⟨⟨array, arrayShape⟩, hmem⟩ := List.exists_mem_of_ne_nil _ hne
    obtain ⟨_, v, _, hv⟩ := mem_arraysOf.mp hmem
    have hextents := v.one_le_of_shape hv
    rw [hshapes _ hmem] at hextents
    obtain ⟨is, his⟩ := exists_mem_rowMajor hextents
    obtain ⟨l, hl, y, z, hy, hz, rfl⟩ := Forall₂.exists_right hls his
    -- What is put in stands for arrays, which are declared.
    have hnone : elementSubstitution ((arraysOf vars lhs rhs).map (·.1)) is name = none := by
      rw [elementSubstitution, if_neg]
      rw [List.contains_iff_mem, List.mem_map]
      rintro ⟨⟨array, arrayShape⟩, hmem, rfl⟩
      obtain ⟨_, v, hv, _⟩ := mem_arraysOf.mp hmem
      obtain ⟨hv, hvname⟩ := declaredAs?_eq_some hv
      exact hname v hv hvname
    rcases List.mem_pair.mp hx with rfl | rfl
    · exact ⟨_, hl, y, List.mem_cons_self, Expr.mem_nodes_substitute hy hnone hnode⟩
    · exact ⟨_, hl, z, List.mem_cons_of_mem _ List.mem_cons_self,
        Expr.mem_nodes_substitute hz hnone hnode⟩

theorem Equation.split_keeps (hname : ∀ v ∈ vars, v.name ≠ name)
    (h : e.split vars label = .ok ls) (hx : x ∈ e.exprs) (hnode : .var name ∈ x.nodes) :
    ∃ l ∈ ls, ∃ y ∈ l.equation.exprs, .var name ∈ y.nodes := by
  induction e using Equation.inductionOn generalizing label ls with
  | simple lhs rhs => exact splitSimple_keeps hname h hx hnode
  | loop index start stop step body ih =>
    obtain rfl := Except.ok.inj h
    exact ⟨_, List.mem_cons_self, x, hx, hnode⟩
  | choice kind branches otherwise ih =>
    rcases split_choice h with ⟨_, rfl⟩ | ⟨bs, os, rfl, hconditions, hbodies⟩
    · exact ⟨_, List.mem_cons_self, x, hx, hnode⟩
    · refine ⟨_, List.mem_cons_self, ?_⟩
      rcases mem_exprs_choice.mp hx with hx | ⟨body, hbody, e, he, hx⟩
      · exact ⟨x, mem_exprs_choice.mpr (.inl (hconditions ▸ hx)), hnode⟩
      · obtain ⟨body', hbody', hsplit⟩ := Forall₂.exists_right hbodies hbody
        obtain ⟨parts, hparts, rfl⟩ := splitAll_eq_ok.mp hsplit
        obtain ⟨part, hpart, hsplit⟩ := Forall₂.exists_right hparts he
        obtain ⟨l, hl, y, hy, hnode⟩ := ih body hbody e he hsplit hx
        have hmem : l.equation ∈ parts.flatten.map (·.equation) :=
          List.mem_map_of_mem (List.mem_flatten.mpr ⟨part, hpart, hl⟩)
        exact ⟨y, mem_exprs_choice.mpr (.inr ⟨_, hbody', _, hmem, hy⟩), hnode⟩

/-! ### References with subscripts -/

/-- The subscripts come to one number for each extent of the array, from 1 up to the extent. -/
def Variable.Admits (v : Variable) (subscripts : List Expr) : Prop :=
  ∃ indices extents, subscripts.mapM Expr.evaluateInt = .ok indices ∧
    v.extents = some extents ∧
      List.Forall₂ (fun (n : Nat) i => 1 ≤ i ∧ i ≤ (n : Int)) extents indices

/-- The element that the subscripts name is declared under its name, or the name of the variable has
a bracket and what stands before the bracket is not declared. -/
def Draft.Masks (d : Draft) (v : Variable) (subscripts : List Expr) : Prop :=
  ∃ indices, subscripts.mapM Expr.evaluateInt = .ok indices ∧
    ((∃ w ∈ d.vars, w.name = elementName v.name indices) ∨
      ∃ base, baseName? v.name = some base ∧ ∀ w ∈ d.vars, w.name ≠ base)

/-! ### Checks of references -/

theorem baseName?_elementName (name : String) (indices : List Int) :
    baseName? (elementName name indices) = some ((baseName? name).getD name) := by
  have hself : name.toList.takeWhile (· ≠ '[') = name.toList ↔ '[' ∉ name.toList := by
    rw [List.takeWhile_eq_self_iff]
    simp only [decide_eq_true_eq, ne_eq]
    exact List.forall_mem_ne'
  unfold baseName?
  simp only [toList_elementName]
  rw [if_pos (by simp), List.takeWhile_append]
  by_cases hbracket : '[' ∈ name.toList
  · rw [if_neg]
    · simp [hbracket]
    · intro hlength
      exact hself.mp ((List.takeWhile_prefix _).eq_of_length hlength) hbracket
  · rw [hself.mpr hbracket, if_pos rfl]
    simp [hbracket]

/-- What is looked up under the name of an element is its array, or what is declared so. -/
theorem Model.isSome_lookup_iff (hv : v ∈ m.vars) :
    (m.owner? (elementName v.name indices)).isSome ∨
        (m.declared? (elementName v.name indices)).isSome ↔
      elementName v.name indices ∈ v.elementNames ∨
        ∃ w ∈ m.vars, w.name = elementName v.name indices := by
  constructor
  · rintro (hsome | hsome)
    · obtain ⟨w, howner⟩ := Option.isSome_iff_exists.mp hsome
      obtain ⟨hw, hmem⟩ := m.mem_of_owner? howner
      by_cases harray : w.isArray = true
      · obtain ⟨extents, hextents⟩ := Variable.isArray_iff.mp harray
        have hnames := hmem
        rw [Variable.elementNames_of_array hextents] at hnames
        obtain ⟨is, _, heq⟩ := List.mem_map.mp hnames
        obtain rfl := m.eq_of_name hw hv (elementName_injective heq).1
        exact .inl hmem
      · rw [Variable.elementNames, if_neg harray, List.mem_singleton] at hmem
        exact .inr ⟨w, hw, hmem.symm⟩
    · obtain ⟨w, hdeclared⟩ := Option.isSome_iff_exists.mp hsome
      exact .inr ⟨w, declaredAs?_eq_some hdeclared⟩
  · rintro (hmem | ⟨w, hw, hname⟩)
    · exact .inl (Option.isSome_iff_exists.mpr ⟨v, m.owner?_of_mem hv hmem⟩)
    · exact .inr (Option.isSome_iff_exists.mpr ⟨w, m.declared?_of_mem hw hname⟩)

/-- A name that cannot be looked up passes if what stands before its bracket cannot either. -/
theorem Draft.checkReference_of_unknown {d : Draft} {name base : String}
    (hunknown : ¬ ((d.owner? name).isSome ∨ (d.declared? name).isSome))
    (hbase : baseName? name = some base) :
    d.checkReference label name = .ok () ↔ d.declared? base = none := by
  rw [checkReference, if_neg hunknown, hbase]
  dsimp only
  cases d.declared? base with
  | none => simp
  | some w =>
    dsimp only
    cases w.shape <;> simp

/-- A reference to an element that does not exist passes in two cases. -/
theorem Model.checkReference_eq_ok (hv : v ∈ m.vars) :
    m.checkReference label (elementName v.name indices) = .ok () ↔
      elementName v.name indices ∈ v.elementNames ∨
        (∃ w ∈ m.vars, w.name = elementName v.name indices) ∨
        ∃ base, baseName? v.name = some base ∧ ∀ w ∈ m.vars, w.name ≠ base := by
  rw [← or_assoc, ← m.isSome_lookup_iff hv]
  by_cases hknown : (m.owner? (elementName v.name indices)).isSome ∨
      (m.declared? (elementName v.name indices)).isSome
  · exact iff_of_true (if_pos hknown) (.inl hknown)
  · rw [or_iff_right hknown,
      Draft.checkReference_of_unknown hknown (baseName?_elementName v.name indices)]
    cases baseName? v.name with
    | none => simp [m.declared?_of_mem hv rfl]
    | some base => simp [Draft.declared?, declaredAs?_eq_none]

theorem Variable.admits_iff_mem (h : subscripts.mapM Expr.evaluateInt = .ok indices) :
    v.Admits subscripts ↔ elementName v.name indices ∈ v.elementNames := by
  have hadmits : v.Admits subscripts ↔ ∃ extents, v.extents = some extents ∧
      indices ∈ rowMajor extents := by
    simp only [Admits, h, Except.ok.injEq, exists_and_left, exists_eq_left', mem_rowMajor,
      withinExtents_iff]
  rw [hadmits]
  constructor
  · rintro ⟨extents, hextents, hmem⟩
    rw [elementNames_of_array hextents]
    exact List.mem_map_of_mem hmem
  · intro hmem
    by_cases harray : v.isArray = true
    · obtain ⟨extents, hextents⟩ := isArray_iff.mp harray
      rw [elementNames_of_array hextents] at hmem
      obtain ⟨is, his, heq⟩ := List.mem_map.mp hmem
      obtain ⟨_, rfl⟩ := elementName_injective heq
      exact ⟨extents, hextents, his⟩
    · rw [elementNames, if_neg harray, List.mem_singleton] at hmem
      exact absurd hmem (elementName_ne v.name indices)

/-- What a model refers to with subscripts is an element, or escapes the check. -/
theorem Model.admits_or_masks (m : Model) (hv : v ∈ m.vars)
    (href : m.References v.name subscripts) : v.Admits subscripts ∨ m.Masks v subscripts := by
  obtain ⟨hne, s, e, he, x, hx, hnode⟩ := href
  obtain ⟨i, hi⟩ := List.mem_iff_getElem?.mp he
  obtain ⟨ls, hls, hparts⟩ := m.exists_expand hi
  obtain ⟨l, hl, z, hz, hscalar⟩ := hx.exists_scalar hls
  obtain ⟨indices, hindices, _, hname⟩ := Expr.scalar_ref hscalar hnode hne
  by_cases hdeclared : ∃ w ∈ m.vars, w.name = elementName v.name indices
  · exact .inr ⟨indices, hindices, .inl hdeclared⟩
  · have hundeclared : ∀ w ∈ m.vars, w.name ≠ elementName v.name indices :=
      fun w hw hwname => hdeclared ⟨w, hw, hwname⟩
    obtain ⟨parts, hsplit, hmem⟩ := hparts l hl
    obtain ⟨k, hk, y, hy, hnode⟩ := Equation.split_keeps hundeclared hsplit hz hname
    obtain ⟨hcheck, _⟩ := m.checks_of_mem (hmem k hk) hy _ hnode
    rcases (m.checkReference_eq_ok hv).mp hcheck with helement | hescapes
    · exact .inl ((Variable.admits_iff_mem hindices).mpr helement)
    · exact .inr ⟨indices, hindices, hescapes⟩

/-! ### Drafts -/

/-- A reference with subscripts to a variable of a model is to an element, unless the element has a
declared name or the variable's own name has a bracket after what is not declared. A draft with any
other reference is refused with an error about subscripts, unless it has another flaw that is found
first. No accepted draft has such a flaw. -/
theorem Draft.subscripts_within_shapes (d : Draft) (v : Variable) (hv : v ∈ d.vars)
    (subscripts : List Expr) (href : d.References v.name subscripts) :
    ((∃ m, d.check = .ok m) → v.Admits subscripts ∨ d.Masks v subscripts) ∧
    (¬ v.Admits subscripts → ¬ d.Masks v subscripts → ∃ fault, d.check = .error fault ∧
      (fault.isSubscriptError = true ∨ d.IsOtherFlaw fault)) ∧
    ((∃ m, d.check = .ok m) → ∀ fault, ¬ d.IsOtherFlaw fault) := by
  have haccepted : ∀ m, d.check = .ok m → v.Admits subscripts ∨ d.Masks v subscripts := by
    intro m hm
    obtain rfl := toDraft_of_check hm
    exact m.admits_or_masks hv href
  refine ⟨fun ⟨m, hm⟩ => haccepted m hm, fun hadmits hmasks => ?_, fun ⟨m, hm⟩ fault => ?_⟩
  · cases h : d.check with
    | ok m => exact ((haccepted m h).elim hadmits hmasks).elim
    | error fault => exact ⟨fault, rfl, d.elaborate_fails.of_error fault (check_eq_error h)⟩
  · obtain rfl := toDraft_of_check hm
    exact m.not_isOtherFlaw

/-- A loop over `i` from 1 to 3 with the equation `x[i] = 0` if `pre(x[3 - i]) > 0`, and otherwise
`x[i] = 1`. -/
def Draft.overrun : Draft where
  name := "overrun"
  vars := [.pair "x" x_ne_empty]
  equations
    | .continuous => [.loop "i" 1 3 1 [.choice .ifThen
        [.mk (.binary .gt (.pre (.ref "x" [.binary .sub (.lit (.int 3)) (.var "i")]))
            (.lit (.int 0)))
          [.simple (.ref "x" [.var "i"]) (.lit (.int 0))]]
        (some [.simple (.ref "x" [.var "i"]) (.lit (.int 1))])]]
    | _ => []
  description := ""

theorem Draft.overrun_fault {fault : Fault} (h : Draft.overrun.check = .error fault) :
    fault.isSubscriptError = true ∧
      fault.message = "eq[0][i=3].0: x[0] is out of range for x[2]" := by
  have hfacts : (match Draft.overrun.elaborate with
      | .error fault => some (fault.isSubscriptError, fault.message)
      | .ok _ => none) = some (true, "eq[0][i=3].0: x[0] is out of range for x[2]") := by
    decide +kernel
  rw [check_eq_error h] at hfacts
  exact Prod.mk.inj (Option.some.inj hfacts)

/-- At `i = 3` the condition refers to `x[0]`. -/
theorem overrun_is_refused :
    let subscripts := [Expr.binary .sub (.lit (.int 3)) (.lit (.int 3))]
    Variable.pair "x" x_ne_empty ∈ Draft.overrun.vars ∧
    Draft.overrun.References "x" subscripts ∧
    ¬ (Variable.pair "x" x_ne_empty).Admits subscripts ∧
    ¬ Draft.overrun.Masks (.pair "x" x_ne_empty) subscripts ∧
    ∃ fault, Draft.overrun.check = .error fault ∧ fault.isSubscriptError = true ∧
      fault.message = "eq[0][i=3].0: x[0] is out of range for x[2]" := by
  intro subscripts
  have hthree : Expr.evaluateInt (.lit (.int 3)) = .ok 3 := Expr.evaluateInt_int (by decide)
  have hzero : subscripts.mapM Expr.evaluateInt = .ok [0] :=
    mapM_eq_ok.mpr (.cons (bind_eq_ok.mpr ⟨3, hthree, bind_eq_ok.mpr ⟨3, hthree, rfl⟩⟩) .nil)
  have hv : Variable.pair "x" x_ne_empty ∈ Draft.overrun.vars := List.mem_cons_self
  have href : Draft.overrun.References "x" subscripts :=
    ⟨List.cons_ne_nil _ _, .continuous, _, List.mem_cons_self,
      .binary .gt (.pre (.ref "x" subscripts)) (.lit (.int 0)),
      ⟨_, .round 2 (by decide) List.mem_cons_self (.self _), List.mem_cons_self⟩,
      by simp [Expr.nodes]⟩
  have hadmits : ¬ (Variable.pair "x" x_ne_empty).Admits subscripts := by
    rintro ⟨indices, extents, hindices, _, hwithin⟩
    obtain rfl := Except.ok.inj (hzero.symm.trans hindices)
    cases hwithin with
    | cons h => exact absurd h.1 (by decide)
  have hmasks : ¬ Draft.overrun.Masks (.pair "x" x_ne_empty) subscripts := by
    rintro ⟨indices, hindices, ⟨w, hw, hname⟩ | ⟨base, hbase, _⟩⟩
    · obtain rfl := Except.ok.inj (hzero.symm.trans hindices)
      obtain rfl := List.mem_singleton.mp hw
      exact absurd hname (by decide)
    · have hnone : baseName? "x" = none := by decide
      cases hnone.symm.trans hbase
  obtain ⟨_, hrefused, _⟩ := Draft.subscripts_within_shapes .overrun _ hv subscripts href
  obtain ⟨fault, hfault, _⟩ := hrefused hadmits hmasks
  exact ⟨hv, href, hadmits, hmasks, fault, hfault, Draft.overrun_fault hfault⟩

/-! ### Brackets in declared names -/

/-- An array `a[1]` of two, and the equation `a[1][5] = 0`. -/
def Draft.bracketed : Draft where
  name := "bracketed"
  vars := [.pair "a[1]" (by decide)]
  equations
    | .continuous => [.simple (.ref "a[1]" [.lit (.int 5)]) (.lit (.int 0))]
    | _ => []
  description := ""

def Draft.bracketedEquations : Section → List Labelled
  | .continuous => [⟨"eq[0]", .simple (.var "a[1][5]") (.lit (.int 0))⟩]
  | _ => []

theorem evaluateInt_five : [Expr.lit (.int 5)].mapM Expr.evaluateInt = .ok [5] :=
  mapM_eq_ok.mpr (.cons (Expr.evaluateInt_int (by decide)) .nil)

theorem Draft.expandSection_bracketed :
    Draft.bracketed.expandSection .continuous = .ok (bracketedEquations .continuous) := by
  have hscalar : (Expr.ref "a[1]" [.lit (.int 5)]).scalar Substitution.none =
      .ok (.var "a[1][5]") :=
    bind_eq_ok.mpr ⟨_, rfl,
      Expr.resolve_eq_ok (List.cons_ne_nil _ _) evaluateInt_five (by decide +kernel)⟩
  have hexpand : (Equation.simple (.ref "a[1]" [.lit (.int 5)]) (.lit (.int 0))).expand "eq[0]" =
      .ok (bracketedEquations .continuous) := bind_eq_ok.mpr ⟨_, hscalar, rfl⟩
  have hequation : Draft.bracketed.expandEquation "eq[0]"
      (.simple (.ref "a[1]" [.lit (.int 5)]) (.lit (.int 0))) =
      .ok (bracketedEquations .continuous) := bind_eq_ok.mpr ⟨_, hexpand, rfl⟩
  exact bind_eq_ok.mpr ⟨[_], mapM_eq_ok.mpr (.cons hequation .nil), rfl⟩

/-- The name `a[1][5]` is cut at its first bracket, and `a` is not declared. -/
theorem Draft.checkReference_bracketed :
    Draft.bracketed.checkReference "eq[0]" "a[1][5]" = .ok () := by
  rfl

theorem Draft.elaborate_bracketed : Draft.bracketed.elaborate = .ok bracketedEquations := by
  apply elaborate_of_sections
  · rfl
  · cbv
  · intro s
    cases s with
    | continuous => exact expandSection_bracketed
    | _ => rfl
  · intro s
    cases s with
    | continuous =>
      refine forM_eq_ok.mpr (List.forall_mem_singleton.mpr (checkEquation_iff.mpr ⟨?_, ?_, _, rfl⟩))
      · refine checkNodes_eq_ok.mpr (List.forall_mem_cons.mpr ⟨⟨_, Expr.walk_eq trivial, ?_⟩, ?_⟩)
        · exact List.forall_mem_singleton.mpr checkReference_bracketed
        · exact List.forall_mem_singleton.mpr
            ⟨_, Expr.walk_eq trivial, List.forall_mem_singleton.mpr rfl⟩
      · cbv
    | _ => rfl

/-- The model is accepted, although the array has no such element. -/
theorem bracketed_escapes :
    Variable.pair "a[1]" (by decide) ∈ Draft.bracketed.vars ∧
    Draft.bracketed.References "a[1]" [.lit (.int 5)] ∧ (∃ m, Draft.bracketed.check = .ok m) ∧
    ¬ (Variable.pair "a[1]" (by decide)).Admits [.lit (.int 5)] := by
  refine ⟨List.mem_cons_self, ⟨List.cons_ne_nil _ _, .continuous, _, List.mem_cons_self, _,
    ⟨_, .self _, List.mem_cons_self⟩, Expr.self_mem_nodes _⟩,
    ⟨_, Draft.check_eq_ok Draft.elaborate_bracketed⟩, ?_⟩
  rintro ⟨indices, extents, hindices, hextents, hwithin⟩
  obtain rfl := Except.ok.inj (evaluateInt_five.symm.trans hindices)
  obtain rfl := Option.some.inj hextents
  cases hwithin with
  | cons h => exact absurd h.2 (by decide)

end Causality
