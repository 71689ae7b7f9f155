import Causality.Proofs.Expr.Contexts
import Causality.Proofs.Model.Lookup

/-!
# Counts of unknowns

How often an entry of a simple equation references an unknown, told from the nodes of both sides. A
node counts if it is the unknown itself, and inside a reduction also a reference to the whole array.
When an equation is solved, only nodes that are the unknown are looked for.
-/

namespace Causality

namespace NodeAt

/-- The node is the unknown and stands below no left limit; a value stands below no derivative. -/
def shows (o : Occurrence) (n : NodeAt) : Bool :=
  !n.context.inPre && (o.isDerivative || !n.context.inDer) && n.node.isOccurrence o

end NodeAt

/-- The name is that of an array with this element. -/
def Model.isWhole (m : Model) (element name : String) : Bool :=
  (m.declared? name).any fun v => v.isArray && v.elementNames.contains element

/-- The node stands inside a reduction and refers to the array that has the unknown as an element:
below a derivative for a derivative, below none for a value, and below no left limit. -/
def Model.spreads (m : Model) (o : Occurrence) (n : NodeAt) : Bool :=
  !n.context.inPre && n.context.inReduction && (n.context.inDer == o.isDerivative) &&
    match n.node with
    | .ref name _ => m.isWhole o.name name
    | _ => false

namespace Expr

variable {c : Context} {e : Expr} {n : NodeAt} {o : Occurrence}

/-! ### What is looked for -/

theorem mentionsAny_eq {found : Expr → Bool} {es : List Expr}
    (h : ∀ e ∈ es, e.mentions o = .ok (found e)) : mentionsAny o es = .ok (es.any found) := by
  induction es with
  | nil => rfl
  | cons e rest ih =>
    rw [List.forall_mem_cons] at h
    rw [mentionsAny, h.1, ih h.2, List.any_cons]
    cases found e <;> rfl

/-- Where no derivative and no left limit is entered, a node and its parts are looked through. -/
theorem mentions_of_parts {found : Expr → Bool} (he : e.Known) (hder : e.isDer = false)
    (hpre : e.isPre = false) (h : ∀ part ∈ e.parts, part.mentions o = .ok (found part)) :
    e.mentions o = .ok (e.isOccurrence o || e.parts.any found) := by
  cases e with
  | lit value => rfl
  | ref name subscripts =>
    have hall : mentionsAny o subscripts = .ok (subscripts.any found) := mentionsAny_eq h
    rw [mentions, hall]
    cases isOccurrence o (ref name subscripts) <;> rfl
  | unary op operand =>
    rw [mentions, h operand List.mem_cons_self]
    simp [isOccurrence, parts]
  | binary op left right =>
    rw [mentions, h left (by simp [parts]), h right (by simp [parts])]
    cases hleft : found left <;>
      simp [isOccurrence, parts, hleft, bind, Except.bind, pure, Except.pure]
  | call function arguments => exact mentionsAny_eq h
  | cond condition whenTrue whenFalse =>
    rw [mentions, h condition (by simp [parts]), h whenTrue (by simp [parts]),
      h whenFalse (by simp [parts])]
    cases hc : found condition <;> cases ht : found whenTrue <;>
      simp [isOccurrence, parts, hc, ht, bind, Except.bind, pure, Except.pure]
  | der operand => cases hder
  | pre operand => cases hpre
  | foreign kind => exact absurd he id

/-- Below a left limit no node shows an unknown, and below a derivative none shows a value. -/
theorem any_shows_eq_false (h : c.inPre = true ∨ c.inDer = true ∧ o.isDerivative = false) :
    (e.nodesIn c).any (NodeAt.shows o) = false := by
  rw [List.any_eq_false]
  intro n hn
  have hwithin := within_of_mem_nodesIn hn
  rcases h with hpre | ⟨hder, hvalue⟩
  · simp [NodeAt.shows, hwithin.inPre hpre]
  · simp [NodeAt.shows, hwithin.inDer hder, hvalue]

theorem shows_self (hpre : c.inPre = false) (hder : c.inDer = true → o.isDerivative = true) :
    (NodeAt.mk e c).shows o = e.isOccurrence o := by
  cases hc : c.inDer with
  | false => simp [NodeAt.shows, hpre, hc]
  | true => simp [NodeAt.shows, hpre, hder hc]

/-- An unknown is found exactly if some node shows it. -/
theorem mentions_eq (he : e.Known) (hpre : c.inPre = false)
    (hder : c.inDer = true → o.isDerivative = true) :
    e.mentions o = .ok ((e.nodesIn c).any (NodeAt.shows o)) := by
  induction e using partsInduction generalizing c with
  | _ e ih =>
    rw [nodesIn_eq, List.any_cons, List.any_flatMap, shows_self hpre hder]
    by_cases hlimit : e.isPre = true
    · cases e with
      | pre operand =>
        have hhidden := any_shows_eq_false (e := operand) (c := c.under (pre operand)) (o := o)
          (.inl (by simp [Context.under, isPre]))
        simp [mentions, isOccurrence, parts, hhidden]
      | _ => cases hlimit
    · have hpre' : (c.under e).inPre = false := by simp [Context.under, hpre, hlimit]
      by_cases hderivative : e.isDer = true
      · cases e with
        | der operand =>
          cases ho : o.isDerivative with
          | true =>
            have hoperand := ih operand (by simp [parts]) he hpre' fun _ => ho
            rw [mentions, ho, if_pos rfl, hoperand]
            cases isOccurrence o (der operand) <;> simp [parts]
          | false =>
            have hhidden := any_shows_eq_false (e := operand) (c := c.under (der operand)) (o := o)
              (.inr ⟨by simp [Context.under, isDer], ho⟩)
            rw [mentions, ho]
            cases isOccurrence o (der operand) <;> simp [parts, hhidden]
        | _ => cases hderivative
      · refine mentions_of_parts he (Bool.eq_false_iff.mpr hderivative)
          (Bool.eq_false_iff.mpr hlimit) fun part hpart => ?_
        refine ih part hpart (he.parts part hpart) hpre' fun h => hder ?_
        simpa [Context.under, hderivative] using h

/-! ### What is counted -/

/-- Every derivative is one of a name. -/
def DerivesNames (e : Expr) : Prop := ∀ x, der x ∈ e.nodes → ∃ name, x = .var name

theorem DerivesNames.parts (h : e.DerivesNames) : ∀ part ∈ e.parts, part.DerivesNames := by
  intro part hpart x hx
  exact h x (mem_nodes_iff.mpr (.inr ⟨part, hpart, hx⟩))

end Expr

def RefSite.names (o : Occurrence) (site : RefSite) : Bool :=
  !site.inPre && (site.inDer == o.isDerivative) && site.name = o.name

namespace Expr

variable {c : Context} {e : Expr} {n : NodeAt} {o : Occurrence}

theorem countP_filterMap_site (p : RefSite → Bool) (ns : List NodeAt) :
    (ns.filterMap NodeAt.site?).countP p = ns.countP fun n => n.site?.any p := by
  rw [List.countP_filterMap]
  congr 1
  funext n
  cases n.site? <;> simp

/-- The derivative of a name shows its derivative, and the name below shows nothing. -/
theorem countP_der (name : String) :
    ((der (.var name)).nodesIn c).countP (fun n => n.site?.any (RefSite.names o)) =
      ((der (.var name)).nodesIn c).countP (NodeAt.shows o) := by
  cases hpre : c.inPre <;> cases ho : o.isDerivative <;>
    simp [var, nodesIn, nodesInAll, Context.under, isDer, isPre, List.countP_cons, NodeAt.shows,
      NodeAt.site?, RefSite.names, isOccurrence, hpre, ho]

theorem countP_names (he : e.DerivesNames) (hc : c.inDer = false) :
    (e.nodesIn c).countP (fun n => n.site?.any (RefSite.names o)) =
      (e.nodesIn c).countP (NodeAt.shows o) := by
  induction e using partsInduction generalizing c with
  | _ e ih =>
    by_cases hderivative : e.isDer = true
    · cases e with
      | der operand =>
        obtain ⟨name, rfl⟩ := he operand (self_mem_nodes _)
        exact countP_der name
      | _ => cases hderivative
    · have hparts : (e.parts.flatMap (nodesIn (c.under e))).countP
            (fun n => n.site?.any (RefSite.names o)) =
          (e.parts.flatMap (nodesIn (c.under e))).countP (NodeAt.shows o) := by
        rw [List.countP_flatMap, List.countP_flatMap]
        congr 1
        refine List.map_congr_left fun part hpart => ih part hpart (he.parts part hpart) ?_
        simp [Context.under, hc, hderivative]
      have hhead : (NodeAt.mk e c).site?.any (RefSite.names o) = (NodeAt.mk e c).shows o := by
        cases e <;> simp_all [NodeAt.site?, NodeAt.shows, RefSite.names, isOccurrence, isDer]
        cases o.isDerivative <;> simp
      rw [nodesIn_eq, List.countP_cons, List.countP_cons, hparts, hhead]

end Expr

/-! ### References of simple equations -/

variable {m : Model} {v w : Variable} {site : RefSite} {o : Occurrence} {element name : String}

theorem Model.isWhole_iff : m.isWhole element name = true ↔
    ∃ v, m.declared? name = some v ∧ v.isArray = true ∧ element ∈ v.elementNames := by
  simp [isWhole, Option.any_eq_true]

/-- An array has no element of the name under which it is declared. -/
theorem Model.not_isWhole_self (m : Model) (name : String) : m.isWhole name name = false := by
  rw [Bool.eq_false_iff]
  intro hwhole
  obtain ⟨w, hw, harray, hmem⟩ := m.isWhole_iff.mp hwhole
  obtain ⟨hw, rfl⟩ := declaredAs?_eq_some hw
  exact Variable.name_notMem_elementNames harray hmem

theorem Model.owner?_of_array (hm : ArraysApart m.vars) (hv : v ∈ m.vars)
    (harray : v.isArray = true) : m.owner? v.name = none := by
  cases howner : m.owner? v.name with
  | none => rfl
  | some w =>
    obtain ⟨hw, hmem⟩ := m.mem_of_owner? howner
    by_cases hname : w.name = v.name
    · obtain rfl := m.eq_of_name hw hv hname
      exact absurd hmem (Variable.name_notMem_elementNames harray)
    · exact absurd hmem (hm v hv harray w hw hname)

/-- What a name refers to without being covered is the array that is declared under it. -/
theorem Model.array_of_not_covers (h : m.referent? name = some w)
    (hcovers : ¬ w.covers name = true) : m.declared? name = some w ∧ w.isArray = true := by
  have hdeclared : m.declared? name = some w := by
    cases howner : m.owner? name with
    | none => simpa [referent?, howner] using h
    | some u =>
      obtain rfl : u = w := by simpa [referent?, howner] using h
      exact absurd (Variable.covers_iff.mpr (m.mem_of_owner? howner).2) hcovers
  refine ⟨hdeclared, ?_⟩
  by_contra harray
  have hmem := Variable.name_mem_elementNames (Bool.eq_false_iff.mpr harray)
  rw [(declaredAs?_eq_some hdeclared).2] at hmem
  exact hcovers (Variable.covers_iff.mpr hmem)

/-- A reference stands for an element if it is to the element or to the whole array. -/
theorem Model.mem_scalarNames_iff (hm : ArraysApart m.vars) (hv : v ∈ m.vars)
    (helement : element ∈ v.elementNames) :
    (∃ w, m.referent? name = some w ∧ element ∈ w.scalarNames name) ↔
      name = element ∨ m.isWhole element name = true := by
  constructor
  · rintro ⟨w, hw, hmem⟩
    unfold Variable.scalarNames at hmem
    split_ifs at hmem with hcovers
    · exact .inl (List.mem_singleton.mp hmem).symm
    · obtain ⟨hdeclared, harray⟩ := m.array_of_not_covers hw hcovers
      exact .inr (m.isWhole_iff.mpr ⟨w, hdeclared, harray, hmem⟩)
  · rintro (rfl | hwhole)
    · refine ⟨v, m.referent?_of_owner? (m.owner?_of_mem hv helement), ?_⟩
      rw [Variable.scalarNames, if_pos (Variable.covers_iff.mpr helement)]
      exact List.mem_singleton_self _
    · obtain ⟨w, hdeclared, harray, hmem⟩ := m.isWhole_iff.mp hwhole
      obtain ⟨hw, rfl⟩ := declaredAs?_eq_some hdeclared
      refine ⟨w, m.referent?_of_declared? (m.owner?_of_array hm hw harray) hdeclared, ?_⟩
      rw [Variable.scalarNames, if_neg]
      · exact hmem
      · intro hcovers
        exact Variable.name_notMem_elementNames harray (Variable.covers_iff.mp hcovers)

/-- The site refers to the whole array that has the unknown as an element. -/
def Model.spreadsAt (m : Model) (o : Occurrence) (site : RefSite) : Bool :=
  !site.inPre && (site.inDer == o.isDerivative) && m.isWhole o.name site.name

theorem Model.mem_readAt_iff_names (hm : ArraysApart m.vars) (hv : v ∈ m.vars)
    (hknown : v.isKnown = false) (ho : o.name ∈ v.elementNames) :
    o ∈ m.readAt site ↔ site.names o = true ∨ m.spreadsAt o site = true := by
  have hnames : (∃ w, m.referent? site.name = some w ∧ o.name ∈ w.scalarNames site.name) ↔
      site.name = o.name ∨ m.isWhole o.name site.name = true := m.mem_scalarNames_iff hm hv ho
  have hkind : (o.kind = if site.inDer then .derivative else .value) ↔
      (site.inDer == o.isDerivative) = true := by
    obtain ⟨_, kind⟩ := o
    cases kind <;> cases site.inDer <;> simp [Occurrence.isDerivative]
  simp only [RefSite.names, Model.spreadsAt, Bool.and_eq_true, Bool.not_eq_true', decide_eq_true_eq,
    ← and_or_left, ← hnames, m.mem_readAt_iff]
  constructor
  · rintro ⟨w, hw, hpre, _, hmem, hk⟩
    exact ⟨⟨hpre, hkind.mp hk⟩, w, hw, hmem⟩
  · rintro ⟨⟨hpre, hk⟩, w, hw, hmem⟩
    obtain rfl := m.variable_unique (m.mem_of_referent? hw) hv (Variable.mem_scalarNames hmem) ho
    exact ⟨w, hw, hpre, hknown, hmem, hkind.mpr hk⟩

theorem Variable.nodup_scalarNames (v : Variable) (name : String) : (v.scalarNames name).Nodup := by
  unfold scalarNames
  split_ifs
  · exact List.nodup_singleton name
  · exact v.nodup_elementNames

theorem Variable.nodup_occurrencesAt (v : Variable) (site : RefSite) :
    (v.occurrencesAt site).Nodup := by
  unfold occurrencesAt
  split
  · exact List.nodup_nil
  · exact (v.nodup_scalarNames site.name).map fun _ _ h => congrArg Occurrence.name h

theorem Model.nodup_readAt (m : Model) (site : RefSite) : (m.readAt site).Nodup := by
  unfold readAt
  split
  · exact Variable.nodup_occurrencesAt _ site
  · exact List.nodup_nil

theorem Model.count_readAt (hm : ArraysApart m.vars) (hv : v ∈ m.vars) (hknown : v.isKnown = false)
    (ho : o.name ∈ v.elementNames) : (m.readAt site).count o =
      (if site.names o then 1 else 0) + if m.spreadsAt o site then 1 else 0 := by
  have hmem : o ∈ m.readAt site ↔ site.names o = true ∨ m.spreadsAt o site = true :=
    m.mem_readAt_iff_names hm hv hknown ho
  by_cases hnames : site.names o = true
  · have hself : m.spreadsAt o site = false := by
      obtain ⟨_, hname⟩ : _ ∧ site.name = o.name := by simpa [RefSite.names] using hnames
      simp [spreadsAt, hname, m.not_isWhole_self]
    rw [List.count_eq_one_of_mem (m.nodup_readAt site) (hmem.mpr (.inl hnames)), hnames, hself]
    rfl
  · rw [if_neg hnames, Nat.zero_add]
    split_ifs with hspreads
    · exact List.count_eq_one_of_mem (m.nodup_readAt site) (hmem.mpr (.inr hspreads))
    · exact List.count_eq_zero.mpr fun h => (hmem.mp h).elim hnames hspreads

theorem Model.count_flatMap_readAt (hm : ArraysApart m.vars) (hv : v ∈ m.vars)
    (hknown : v.isKnown = false) (ho : o.name ∈ v.elementNames) (sites : List RefSite) :
    (sites.flatMap m.readAt).count o =
      sites.countP (RefSite.names o) + sites.countP (m.spreadsAt o) := by
  induction sites with
  | nil => rfl
  | cons site rest ih =>
    rw [List.flatMap_cons, List.count_append, ih, m.count_readAt hm hv hknown ho,
      List.countP_cons, List.countP_cons]
    omega

variable {e : Expr}

/-- Whole arrays stand inside reductions only. -/
def Model.KeepsWhole (m : Model) (e : Expr) : Prop :=
  ∀ v ∈ m.vars, v.isArray = true → v.name ∉ e.elementwiseNames

/-- A reference to a whole array is one inside a reduction. -/
theorem Model.any_spreadsAt_eq {c : Context} {n : NodeAt} (he : m.KeepsWhole e)
    (hn : n ∈ e.nodesIn c) : n.site?.any (m.spreadsAt o) = m.spreads o n := by
  obtain ⟨node, context⟩ := n
  cases node with
  | ref name subscripts =>
    have hinside : context.inReduction = false → m.isWhole o.name name = false := by
      intro hreduction
      have hname := Expr.mem_elementwiseNames hn rfl hreduction
      rw [Bool.eq_false_iff]
      intro hwhole
      obtain ⟨v, hdeclared, harray, _⟩ := m.isWhole_iff.mp hwhole
      obtain ⟨hv, rfl⟩ := declaredAs?_eq_some hdeclared
      exact he v hv harray hname
    cases hreduction : context.inReduction with
    | false => simp [NodeAt.site?, spreadsAt, spreads, hreduction, hinside hreduction]
    | true => simp [NodeAt.site?, spreadsAt, spreads, hreduction]
  | _ => simp [NodeAt.site?, spreads]

theorem Model.count_reads (hm : ArraysApart m.vars) (hv : v ∈ m.vars) (hknown : v.isKnown = false)
    (ho : o.name ∈ v.elementNames) (hder : e.DerivesNames) (hwhole : m.KeepsWhole e) :
    (m.reads e).count o = (e.nodesIn .top).countP (NodeAt.shows o) +
      (e.nodesIn .top).countP (m.spreads o) := by
  have hspreads : (e.nodesIn .top).countP (fun n => n.site?.any (m.spreadsAt o)) =
      (e.nodesIn .top).countP (m.spreads o) :=
    List.countP_congr fun n hn => by rw [m.any_spreadsAt_eq hwhole hn]
  have hsites : e.sites false false = (e.nodesIn .top).filterMap NodeAt.site? :=
    Expr.sites_eq_filterMap .top e
  rw [reads, m.count_flatMap_readAt hm hv hknown ho, hsites, Expr.countP_filterMap_site,
    Expr.countP_filterMap_site, Expr.countP_names hder rfl, hspreads]

/-! ### Entries -/

theorem Expr.mem_nodes_of_part {n part : Expr} (hn : n ∈ e.nodes) (hpart : part ∈ n.parts) :
    part ∈ e.nodes := by
  induction e using Expr.partsInduction with
  | _ e ih =>
    rcases Expr.mem_nodes_iff.mp hn with rfl | ⟨first, hfirst, hn⟩
    · exact Expr.mem_nodes_iff.mpr (.inr ⟨part, hpart, part.self_mem_nodes⟩)
    · exact Expr.mem_nodes_iff.mpr (.inr ⟨first, hfirst, ih first hfirst hn⟩)

theorem Model.derivesNames_of_mem {s : Section} {l : Labelled} (hl : l ∈ m.expanded s)
    (he : e ∈ l.equation.exprs) : e.DerivesNames := by
  intro x hx
  have hcheck := m.checkDerivative_of_mem hl he _ hx
  cases x with
  | ref name subscripts =>
    have hplain := Equation.Expanded.plain l.equation (m.expanded_of_mem hl) e he
    have hname := Expr.mem_nodes_of_part hx List.mem_cons_self
    have hplainref := Expr.Plain.isSubscripted_nodes e hplain _ hname
    cases subscripts with
    | nil => exact ⟨name, rfl⟩
    | cons s rest => cases hplainref
  | _ => cases hcheck

theorem Model.keepsWhole_of_separate {lhs rhs : Expr} (h : arraysOf m.vars lhs rhs = []) :
    m.KeepsWhole lhs ∧ m.KeepsWhole rhs := by
  have hnames := m.notMem_of_separate h
  simp only [List.mem_append, not_or] at hnames
  exact ⟨fun v hv harray => (hnames v hv harray).1, fun v hv harray => (hnames v hv harray).2⟩

/-- An entry of a simple equation counts an unknown once for each node that is the unknown, and
once for each reference inside a reduction to the array that has it. When the equation is solved,
the unknown is found exactly if there is a node of the first kind. -/
theorem Model.counts_agree (m : Model) (hm : ArraysApart m.vars) (includeInitial : Bool)
    (g : Incidence) (h : m.incidence includeInitial = .ok g) (e : Entry) (he : e ∈ g.entries)
    (lhs rhs : Expr) (hsource : e.source = .simple lhs rhs) (v : Variable) (hv : v ∈ m.vars)
    (hknown : v.isKnown = false) (o : Occurrence) (ho : o.name ∈ v.elementNames) :
    let sides := lhs.nodesIn .top ++ rhs.nodesIn .top
    e.count o = sides.countP (NodeAt.shows o) + sides.countP (m.spreads o) ∧
    ∃ left right, lhs.mentions o = .ok left ∧ rhs.mentions o = .ok right ∧
      ((left || right) = true → 0 < e.count o) ∧
      (e.count o ≠ sides.countP (m.spreads o) → (left || right) = true) := by
  intro sides
  obtain ⟨l, r, hresidual⟩ := m.exists_residual h he
  obtain ⟨s, hl⟩ := hresidual.expanded
  have hequation : l.equation = .simple lhs rhs := hresidual.source.symm.trans hsource
  have hexprs : l.equation.exprs = [lhs, rhs] := by rw [hequation, Equation.exprs]
  have hlhs : lhs ∈ l.equation.exprs := by simp [hexprs]
  have hrhs : rhs ∈ l.equation.exprs := by simp [hexprs]
  have hseparate := (Draft.expandSection_expanded (m.expandSection_eq_ok s) l hl).2 hm
  rw [hequation] at hseparate
  obtain ⟨hwholel, hwholer⟩ := m.keepsWhole_of_separate hseparate
  have hsimple := m.isSimple_of_source h he hsource
  have hcount : e.count o = sides.countP (NodeAt.shows o) + sides.countP (m.spreads o) := by
    rw [Entry.count, hsimple.references, List.count_append,
      m.count_reads hm hv hknown ho (m.derivesNames_of_mem hl hlhs) hwholel,
      m.count_reads hm hv hknown ho (m.derivesNames_of_mem hl hrhs) hwholer,
      List.countP_append, List.countP_append]
    omega
  have hleft := Expr.mentions_eq (c := .top) (o := o) (hsimple.left.plain.known lhs) rfl
    (absurd · Bool.false_ne_true)
  have hright := Expr.mentions_eq (c := .top) (o := o) (hsimple.right.plain.known rhs) rfl
    (absurd · Bool.false_ne_true)
  have hfound : (sides.any (NodeAt.shows o)) = true ↔ 0 < sides.countP (NodeAt.shows o) := by
    rw [List.any_eq_true, List.countP_pos_iff]
  rw [List.any_append] at hfound
  refine ⟨hcount, _, _, hleft, hright, fun hany => ?_, fun hne => hfound.mpr ?_⟩
  · have hpos := hfound.mp hany
    omega
  · omega

/-- The sides of the equation `max(x) + x[1] = y * pre(x[1])`. -/
def crestedSides : Expr × Expr :=
  (.binary .add (.call .max [.var "x"]) (.var "x[1]"), .binary .mul (.var "y") (.pre (.var "x[1]")))

def Draft.crested : Draft where
  name := "crested"
  vars := [.pair "x" x_ne_empty, .unknown "y" y_ne_empty]
  equations
    | .continuous => [.simple crestedSides.1 crestedSides.2]
    | _ => []
  description := ""

theorem Draft.elaborate_crested : Draft.crested.elaborate = .ok Draft.crested.asDeclared := by
  apply Draft.elaborate_of_sections
  · rfl
  · cbv
  · intro s
    cases s <;> cbv
  · intro s
    cases s <;> cbv

def Model.crested : Model where
  toDraft := .crested
  expanded := Draft.crested.asDeclared
  accepted := Draft.elaborate_crested

/-- The element `x[1]` is counted once by its name and once for the maximum, `x[2]` only for the
maximum. -/
theorem crested_counts_agree : ∃ g, Model.crested.incidence false = .ok g ∧
    ∃ e ∈ g.entries, e.source = .simple crestedSides.1 crestedSides.2 ∧
      e.count ⟨"x[1]", .value⟩ = 2 ∧ e.count ⟨"x[2]", .value⟩ = 1 ∧
      (∃ left right, crestedSides.1.mentions ⟨"x[1]", .value⟩ = .ok left ∧
        crestedSides.2.mentions ⟨"x[1]", .value⟩ = .ok right ∧ (left || right) = true) := by
  have hvars : ArraysApart Model.crested.vars := by
    unfold ArraysApart
    decide
  have hfacts : (Model.crested.incidence false).map (fun g => g.entries.map (·.source)) =
      .ok [.simple crestedSides.1 crestedSides.2] := by cbv
  obtain ⟨g, hg, hsources⟩ := map_eq_ok.mp hfacts
  obtain ⟨e, he, hsource⟩ := List.mem_map.mp (hsources ▸ List.mem_cons_self)
  have hagree := Model.counts_agree .crested hvars false g hg e he _ _ hsource
    (.pair "x" x_ne_empty) List.mem_cons_self rfl
  obtain ⟨hfirst, left, right, hleft, hright, _, hfound⟩ := hagree ⟨"x[1]", .value⟩ (by decide)
  obtain ⟨hsecond, _⟩ := hagree ⟨"x[2]", .value⟩ (by decide)
  have hcounts : e.count ⟨"x[1]", .value⟩ = 2 ∧ e.count ⟨"x[2]", .value⟩ = 1 := by
    rw [hfirst, hsecond]
    constructor <;> cbv
  refine ⟨g, hg, e, he, hsource, hcounts.1, hcounts.2, left, right, hleft, hright, hfound ?_⟩
  rw [hcounts.1]
  cbv

end Causality
