import Causality.Proofs.Equation.Balance
import Causality.Proofs.Equation.Residuals
import Causality.Proofs.Equation.Turned
import Causality.Proofs.Expr.Readings
import Causality.Proofs.Model.Lookup

/-!
# What split equations say

A model splits every array equation that its declared equations expand to, wherever it stands. The
equations for the elements hold exactly if the whole equation holds at every index, where an array
outside of reductions is read as its element. Reductions say the same at all of them.
-/

namespace Causality

variable {vars : List Variable} {label : String} {ls : List Labelled} {lhs rhs : Expr}
  {kind : ChoiceKind} {branches : List Branch} {otherwise : Option (List Equation)}
  {indices : List Int}

/-! ### Indices -/

theorem withinExtents_iff {extents : List Nat} {indices : List Int} :
    withinExtents extents indices = true ↔
      List.Forall₂ (fun (n : Nat) i => 1 ≤ i ∧ i ≤ (n : Int)) extents indices := by
  induction extents generalizing indices with
  | nil => cases indices <;> simp [withinExtents]
  | cons n extents ih => cases indices <;> simp [withinExtents, ih]

/-- In row-major order, the first subscript that differs decides. -/
theorem pairwise_rowMajor (extents : List Nat) : (rowMajor extents).Pairwise (· < ·) := by
  induction extents with
  | nil => exact List.pairwise_singleton _ _
  | cons n extents ih =>
    rw [rowMajor, List.pairwise_flatMap]
    constructor
    · intro i _
      refine List.pairwise_map.mpr (ih.imp fun h => ?_)
      exact List.cons_lt_cons_iff.mpr (.inr ⟨rfl, h⟩)
    · refine List.pairwise_lt_range.imp fun {i j} hij => ?_
      intro is his js hjs
      obtain ⟨_, _, rfl⟩ := List.mem_map.mp his
      obtain ⟨_, _, rfl⟩ := List.mem_map.mp hjs
      exact List.cons_lt_cons_iff.mpr (.inl (by omega))

/-! ### Equations inside choices -/

theorem Equation.splitAll_eq_ok {es rs : List Equation} :
    Equation.splitAll vars label es = .ok rs ↔ ∃ parts,
      List.Forall₂ (fun e part => e.split vars label = .ok part) es parts ∧
        parts.flatten.map (·.equation) = rs := by
  induction es generalizing rs with
  | nil => simp [Equation.splitAll]
  | cons e rest ih =>
    simp only [Equation.splitAll, bind_eq_ok, pure_eq_ok, ih, List.forall₂_cons_left_iff]
    constructor
    · rintro ⟨part, hpart, _, ⟨parts, hparts, rfl⟩, rfl⟩
      exact ⟨part :: parts, ⟨part, parts, hpart, hparts, rfl⟩, by simp⟩
    · rintro ⟨_, ⟨part, parts, hpart, hparts, rfl⟩, rfl⟩
      exact ⟨part, hpart, _, ⟨parts, hparts, rfl⟩, by simp⟩

theorem Branch.splitAll_parts {bs rs : List Branch} (h : Branch.splitAll vars label bs = .ok rs) :
    rs.map (·.condition) = bs.map (·.condition) ∧
      List.Forall₂ (fun body body' => Equation.splitAll vars label body = .ok body')
        (bs.map (·.body)) (rs.map (·.body)) := by
  induction bs generalizing rs with
  | nil =>
    obtain rfl := Except.ok.inj h
    exact ⟨rfl, .nil⟩
  | cons b rest ih =>
    obtain ⟨condition, body⟩ := b
    simp only [Branch.splitAll, bind_eq_ok, pure_eq_ok] at h
    obtain ⟨es, hes, others, hothers, rfl⟩ := h
    obtain ⟨hconditions, hbodies⟩ := ih hothers
    exact ⟨congrArg (condition :: ·) hconditions, .cons hes hbodies⟩

namespace Equation

/-- The bodies of a choice are split one by one, unless it has no branch. -/
theorem split_choice (h : (choice kind branches otherwise).split vars label = .ok ls) :
    branches = [] ∧ ls = [⟨label, .choice kind branches otherwise⟩] ∨
      ∃ bs os, ls = [⟨label, .choice kind bs os⟩] ∧
        bs.map (·.condition) = branches.map (·.condition) ∧
        List.Forall₂ (fun body body' => splitAll vars label body = .ok body')
          (bodiesOf branches otherwise) (bodiesOf bs os) := by
  cases otherwise with
  | none =>
    simp only [split, bind_eq_ok, pure_eq_ok] at h
    obtain ⟨bs, hbs, rfl⟩ := h
    obtain ⟨hconditions, hbodies⟩ := Branch.splitAll_parts hbs
    exact .inr ⟨bs, none, rfl, hconditions, Forall₂.append hbodies .nil⟩
  | some otherwise =>
    unfold split at h
    by_cases hempty : branches.isEmpty = true
    · rw [if_pos hempty] at h
      exact .inl ⟨List.isEmpty_iff.mp hempty, (Except.ok.inj h).symm⟩
    · rw [if_neg hempty] at h
      simp only [bind_eq_ok, pure_eq_ok] at h
      obtain ⟨bs, hbs, es, hes, rfl⟩ := h
      obtain ⟨hconditions, hbodies⟩ := Branch.splitAll_parts hbs
      exact .inr ⟨bs, some es, rfl, hconditions, Forall₂.append hbodies (.cons hes .nil)⟩

/-- Every simple equation is split, wherever it stands, if the choices around it are complete. -/
theorem exists_splitSimple {e : Equation} (he : e.LoopFree) (h : e.split vars label = .ok ls)
    (hcomplete : ∀ l ∈ ls, ∀ n ∈ l.equation.nodes, n.IsComplete)
    (hnode : simple lhs rhs ∈ e.nodes) : ∃ results, splitSimple vars label lhs rhs = .ok results ∧
      ∀ r ∈ results, ∃ l ∈ ls, r.equation ∈ l.equation.nodes := by
  induction e using Equation.inductionOn generalizing ls with
  | simple l r =>
    obtain ⟨rfl, rfl⟩ := simple.inj (List.mem_singleton.mp hnode)
    exact ⟨ls, h, fun r hr => ⟨r, hr, r.equation.self_mem_nodes⟩⟩
  | loop index start stop step body ih => cases he _ (self_mem_nodes _)
  | choice kind branches otherwise ih =>
    rcases split_choice h with ⟨rfl, rfl⟩ | ⟨bs, os, rfl, _, hbodies⟩
    · -- A choice without branches is left whole, but it is not complete.
      have hself := hcomplete _ (List.mem_singleton_self _) _ (self_mem_nodes _)
      cases kind <;> exact absurd rfl hself.1
    · rw [nodes_choice, List.mem_cons, List.mem_flatMap] at hnode
      obtain ⟨body, hbody, hnode⟩ := hnode.resolve_left (by simp)
      rw [nodesAll_eq, List.mem_flatMap] at hnode
      obtain ⟨e, hmem, hnode⟩ := hnode
      obtain ⟨body', hbody', hsplit⟩ := Forall₂.exists_right hbodies hbody
      obtain ⟨parts, hparts, rfl⟩ := splitAll_eq_ok.mp hsplit
      obtain ⟨part, hpart, hsplit⟩ := Forall₂.exists_right hparts hmem
      -- What this part consists of is inside the split choice, so it is complete there.
      have hinside : ∀ l ∈ part, ∀ n ∈ l.equation.nodes, n ∈ (choice kind bs os).nodes := by
        intro l hl n hn
        refine mem_nodes_of_body hbody' (List.mem_map_of_mem ?_) hn
        exact List.mem_flatten.mpr ⟨part, hpart, hl⟩
      have hloops := (forall_nodes_choice.mp he).2 body hbody e hmem
      have hparts := List.forall_mem_singleton.mp hcomplete
      obtain ⟨results, hresults, hnodes⟩ := ih body hbody e hmem hloops hsplit
        (fun l hl n hn => hparts n (hinside l hl n hn)) hnode
      refine ⟨results, hresults, fun r hr => ?_⟩
      obtain ⟨l, hl, hn⟩ := hnodes r hr
      exact ⟨_, List.mem_singleton_self _, hinside l hl _ hn⟩

end Equation

/-! ### Arrays as elements -/

/-- The name that is read at an index: for an array that of its element, any other name itself. -/
def elementAt (vars : List Variable) (indices : List Int) (name : String) : String :=
  if (declaredAs? vars name).any (·.isArray) then elementName name indices else name

theorem elementAt_eq {name : String} (hname : name ∈ lhs.elementwiseNames ++ rhs.elementwiseNames) :
    elementAt vars indices name =
      Expr.elementOr ((arraysOf vars lhs rhs).map (·.1)) indices name := by
  have harray : (declaredAs? vars name).any (·.isArray) = true ↔
      name ∈ (arraysOf vars lhs rhs).map (·.1) := by
    simp only [Option.any_eq_true, List.mem_map, Prod.exists, exists_and_right, exists_eq_right,
      mem_arraysOf, Variable.isArray, Option.isSome_iff_exists]
    constructor
    · rintro ⟨v, hv, shape, hshape⟩
      exact ⟨shape, hname, v, hv, hshape⟩
    · rintro ⟨shape, _, v, hv, hshape⟩
      exact ⟨v, hv, shape, hshape⟩
  rw [elementAt, Expr.elementOr, List.contains_eq_mem]
  simp only [harray, decide_eq_true_eq]

/-- The equation for one element: without arrays, and with the values that the sides of the whole
equation have at that index. -/
structure StandsFor (vars : List Variable) (label : String) (lhs rhs : Expr) (indices : List Int)
    (r : Labelled) : Prop where
  label : r.label = elementName label indices
  sides : ∃ x y, r.equation = .simple x y ∧
    (∀ v ∈ vars, v.isArray = true → v.name ∉ x.elementwiseNames ++ y.elementwiseNames) ∧
    ∀ (K : Type) (R : Reading K) (ρ : Quantities K),
      R.value ρ id false false x = R.value ρ (elementAt vars indices) false false lhs ∧
      R.value ρ id false false y = R.value ρ (elementAt vars indices) false false rhs

theorem StandsFor.holds_iff {r : Labelled} (h : StandsFor vars label lhs rhs indices r) {K : Type}
    (R : Reading K) (ρ : Quantities K) :
    R.Holds ρ id r.equation ↔ R.Holds ρ (elementAt vars indices) (.simple lhs rhs) := by
  obtain ⟨x, y, hequation, _, hvalues⟩ := h.sides
  obtain ⟨hx, hy⟩ := hvalues K R ρ
  rw [hequation, Reading.Holds, Reading.Holds, hx, hy]

/-- What all of the equations say is what the whole equation says at every index. -/
theorem forall_holds_iff {indices : List (List Int)} {results : List Labelled}
    (h : List.Forall₂ (StandsFor vars label lhs rhs) indices results) {K : Type} (R : Reading K)
    (ρ : Quantities K) : (∀ r ∈ results, R.Holds ρ id r.equation) ↔
      ∀ is ∈ indices, R.Holds ρ (elementAt vars is) (.simple lhs rhs) := by
  induction h with
  | nil => simp
  | cons hr _ ih => rw [List.forall_mem_cons, List.forall_mem_cons, hr.holds_iff, ih]

theorem Model.standsFor_of_isElement {m : Model} {r : Labelled} (hl : lhs.Plain) (hr : rhs.Plain)
    (hseparate : r.equation.Separate m.vars) (h : IsElement m.vars label lhs rhs indices r) :
    StandsFor m.vars label lhs rhs indices r := by
  obtain ⟨x, y, hx, hy, rfl⟩ := h
  refine ⟨rfl, x, y, rfl, m.notMem_of_separate hseparate, fun K R ρ => ⟨?_, ?_⟩⟩
  · exact Reading.value_substitute false false lhs hl hx fun name hname =>
      elementAt_eq (List.mem_append_left _ hname)
  · exact Reading.value_substitute false false rhs hr hy fun name hname =>
      elementAt_eq (List.mem_append_right _ hname)

/-- A split equation between arrays has one equation for each element of their common shape. -/
theorem Model.exists_elements {m : Model} {results : List Labelled} (hvars : ArraysApart m.vars)
    (hl : lhs.Plain) (hr : rhs.Plain) (harrays : arraysOf m.vars lhs rhs ≠ [])
    (h : splitSimple m.vars label lhs rhs = .ok results) : ∃ extents : List Nat,
      (∀ v ∈ m.vars, v.isArray = true → v.name ∈ lhs.elementwiseNames ++ rhs.elementwiseNames →
        v.extents = some extents) ∧
      List.Forall₂ (StandsFor m.vars label lhs rhs) (rowMajor extents) results := by
  have hseparate := splitSimple_separate hl hr h
  obtain ⟨hsplits, _⟩ := splitSimple_eq_ok.mp h
  cases hsplits with
  | whole hnil => exact absurd hnil harrays
  | elements shape _ hshapes hresults =>
    refine ⟨(shapeExtents shape).map Int.toNat, fun v hv harray hname => ?_, ?_⟩
    · obtain ⟨other, hother⟩ := Option.isSome_iff_exists.mp harray
      have hmem := mem_arraysOf.mpr ⟨hname, v, m.declared?_of_mem hv rfl, hother⟩
      rw [Variable.extents_of_shape hother, hshapes _ hmem]
    · refine Forall₂.imp_of_mem hresults fun is _ r hmem hr' => ?_
      exact m.standsFor_of_isElement hl hr ((hseparate r hmem).2 hvars) hr'

theorem Model.exists_split {m : Model} {s : Section} {i : Nat} {e : Equation} {l : Labelled}
    (he : (m.equations s)[i]? = some e) (hls : e.expand (s.place i) = .ok ls) (hl : l ∈ ls)
    (hnode : .simple lhs rhs ∈ l.equation.nodes) :
    ∃ results, splitSimple m.vars l.label lhs rhs = .ok results ∧
      ∀ r ∈ results, ∃ k ∈ m.expanded s, r.equation ∈ k.equation.nodes := by
  have hexpanded := Equation.expandUnder_expanded e _ _ ls hls l hl
  obtain ⟨ls', hls', hparts⟩ := m.exists_expand he
  obtain rfl := Except.ok.inj (hls.symm.trans hls')
  obtain ⟨parts, hsplit, hinside⟩ := hparts l hl
  have hcomplete : ∀ k ∈ parts, ∀ n ∈ k.equation.nodes, n.IsComplete := by
    intro k hk n hn
    have hchecked := m.checkEquation_eq_ok (hinside k hk)
    obtain ⟨rs, hrs⟩ := (Draft.checkEquation_iff.mp hchecked).2.2
    exact ((Equation.residuals_eq_ok.mp hrs).1 n hn).isComplete
  obtain ⟨results, hresults, hnodes⟩ :=
    Equation.exists_splitSimple hexpanded.loopFree hsplit hcomplete hnode
  refine ⟨results, hresults, fun r hr => ?_⟩
  obtain ⟨k, hk, hn⟩ := hnodes r hr
  exact ⟨k, hinside k hk, hn⟩

/-- Every array equation of a model is split, wherever it stands, into one equation for each element
of the shape that its arrays have in common, in row-major order. The equations refer to no array
outside of reductions. They all hold exactly if the whole equation holds at every index, whatever
the values of the elements are and whatever operators and reductions mean. -/
theorem Model.splitting_preserves_meaning (m : Model) (hvars : ArraysApart m.vars) (s : Section)
    (i : Nat) (e : Equation) (he : (m.equations s)[i]? = some e) (ls : List Labelled)
    (hls : e.expand (s.place i) = .ok ls) (l : Labelled) (hl : l ∈ ls) (lhs rhs : Expr)
    (hnode : .simple lhs rhs ∈ l.equation.nodes)
    (harrays : ∃ v ∈ m.vars, v.isArray = true ∧
      v.name ∈ lhs.elementwiseNames ++ rhs.elementwiseNames) :
    ∃ (extents : List Nat) (results : List Labelled),
      (∀ v ∈ m.vars, v.isArray = true → v.name ∈ lhs.elementwiseNames ++ rhs.elementwiseNames →
        v.extents = some extents) ∧
      (rowMajor extents).Pairwise (· < ·) ∧
      (∀ is, is ∈ rowMajor extents ↔
        List.Forall₂ (fun (n : Nat) i => 1 ≤ i ∧ i ≤ (n : Int)) extents is) ∧
      splitSimple m.vars l.label lhs rhs = .ok results ∧
      (∀ r ∈ results, ∃ k ∈ m.expanded s, r.equation ∈ k.equation.nodes) ∧
      List.Forall₂ (StandsFor m.vars l.label lhs rhs) (rowMajor extents) results ∧
      ∀ (K : Type) (R : Reading K) (ρ : Quantities K),
        (∀ r ∈ results, R.Holds ρ id r.equation) ↔
          ∀ is ∈ rowMajor extents, R.Holds ρ (elementAt m.vars is) (.simple lhs rhs) := by
  obtain ⟨results, hresults, hmem⟩ := m.exists_split he hls hl hnode
  have hplain := Equation.Expanded.plain _ (Equation.expandUnder_expanded e _ _ ls hls l hl)
  have hexprs := l.equation.exprs_nodes _ hnode
  rw [Equation.exprs, List.forall_mem_cons, List.forall_mem_singleton] at hexprs
  have hne : arraysOf m.vars lhs rhs ≠ [] := by
    obtain ⟨v, hv, harray, hname⟩ := harrays
    exact fun hnil => m.notMem_of_separate hnil v hv harray hname
  obtain ⟨extents, hextents, hstands⟩ :=
    m.exists_elements hvars (hplain lhs hexprs.1) (hplain rhs hexprs.2) hne hresults
  exact ⟨extents, results, hextents, pairwise_rowMajor extents,
    fun is => mem_rowMajor.trans withinExtents_iff, hresults, hmem, hstands,
    fun K R ρ => forall_holds_iff hstands R ρ⟩

/-- The right side `y * max(x)`, in which `x` stands inside a reduction. -/
def Expr.peak : Expr := .binary .mul (.var "y") (.call .max [.var "x"])

/-- The equation `x = y * max(x)` where `y` is negative, and otherwise `x = y`. -/
def Equation.peaked : Equation :=
  .choice .ifThen
    [.mk (.binary .lt (.var "y") (.lit (.int 0))) [.simple (.var "x") .peak]]
    (some [.simple (.var "x") (.var "y")])

def Draft.peaked : Draft where
  name := "peaked"
  vars := [.pair "x" x_ne_empty, .ofRole .parameter "y" y_ne_empty]
  equations
    | .continuous => [.loop "i" 1 1 1 [.peaked]]
    | _ => []
  description := ""

def Draft.peakedExpanded : Section → List Labelled
  | .continuous => [⟨"eq[0][i=1].0", .choice .ifThen
      [.mk (.binary .lt (.var "y") (.lit (.int 0)))
        [.simple (.var "x[1]") .peak, .simple (.var "x[2]") .peak]]
      (some [.simple (.var "x[1]") (.var "y"), .simple (.var "x[2]") (.var "y")])⟩]
  | _ => []

theorem Draft.elaborate_peaked : Draft.peaked.elaborate = .ok Draft.peakedExpanded := by
  apply Draft.elaborate_of_sections
  · rfl
  · cbv
  · intro s
    cases s <;> cbv
  · intro s
    cases s <;> cbv

def Model.peaked : Model where
  toDraft := .peaked
  expanded := Draft.peakedExpanded
  accepted := Draft.elaborate_peaked

/-- Integers under which `max` is the larger of two elements. -/
def Reading.larger : Reading Int where
  literal
    | .int n => n
    | _ => 0
  unary _ x := -x
  binary _ x y := x * y
  call _ _ := 0
  cond _ _ _ := 0
  foreign _ := 0
  reduction
    | .call .max [.ref name []], inDer, inPre, ρ =>
      max (ρ (elementName name [1]) inDer inPre) (ρ (elementName name [2]) inDer inPre)
    | _, _, _, _ => 0

/-- Both equations have the same maximum on the right side. -/
theorem peaked_splitting_preserves_meaning : ∃ results,
    splitSimple Model.peaked.vars "eq[0][i=1].0" (.var "x") .peak = .ok results ∧
    results.map (·.label) = ["eq[0][i=1].0[1]", "eq[0][i=1].0[2]"] ∧
    ∀ ρ : Quantities Int, (∀ r ∈ results, Reading.larger.Holds ρ id r.equation) ↔
      ∀ name ∈ ["x[1]", "x[2]"], ρ name false false =
        ρ "y" false false * max (ρ "x[1]" false false) (ρ "x[2]" false false) := by
  have hvars : ArraysApart Model.peaked.vars := by
    unfold ArraysApart
    decide
  obtain ⟨extents, results, hextents, _, _, hresults, _, _, hholds⟩ :=
    Model.splitting_preserves_meaning .peaked hvars .continuous 0 (.loop "i" 1 1 1 [.peaked]) rfl
      [⟨"eq[0][i=1].0", .peaked⟩] rfl _ (List.mem_singleton_self _) (.var "x") .peak
      (List.mem_cons_of_mem _ List.mem_cons_self)
      ⟨_, List.mem_cons_self, rfl, List.mem_cons_self⟩
  obtain rfl : [2] = extents :=
    Option.some.inj (hextents _ List.mem_cons_self rfl List.mem_cons_self)
  have hlabels : results.map (·.label) = ["eq[0][i=1].0[1]", "eq[0][i=1].0[2]"] :=
    (Except.ok.inj (congrArg (fun x => x.map (List.map (·.label))) hresults)).symm
  refine ⟨results, hresults, hlabels, fun ρ => (hholds Int .larger ρ).trans ?_⟩
  have hindices : rowMajor [2] = [[1], [2]] := rfl
  have hfirst : elementName "x" [1] = "x[1]" := by cbv
  have hsecond : elementName "x" [2] = "x[2]" := by cbv
  have harray : ∀ is, elementAt Model.peaked.vars is "x" = elementName "x" is := fun is => rfl
  have hscalar : ∀ is, elementAt Model.peaked.vars is "y" = "y" := fun is => rfl
  rw [hindices]
  simp [Reading.Holds, Reading.value, Reading.larger, Expr.peak, Expr.var, Expr.isReduction, harray,
    hscalar, hfirst, hsecond]

end Causality
