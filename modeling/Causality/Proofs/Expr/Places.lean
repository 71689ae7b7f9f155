import Causality.Proofs.Expr.Contexts
import Causality.Proofs.Expr.Elements

/-!
# Places in an expression

A node is known by its place, the numbers of the parts that lead to it from the root: equal
subexpressions stand at different places. What is above a node stands at the prefixes of its place,
and of two places the one that comes first in pre-order is the lexicographically smaller one. The
traversals visit the places in this order, each of them once.
-/

namespace Causality

def RefSite.expr (site : RefSite) : Expr := .ref site.name site.subscripts

namespace Expr

/-- The node at a place, if the place is inside the expression. -/
def nodeAt? : List Nat → Expr → Option Expr
  | [], e => some e
  | i :: place, e => e.parts[i]?.bind (nodeAt? place)

/-- A node of that kind stands above the place. -/
def Below (kind : Expr → Bool) (e : Expr) (place : List Nat) : Prop :=
  ∃ above node, above <+: place ∧ above ≠ place ∧ e.nodeAt? above = some node ∧ kind node = true

def isRefAt (e : Expr) (place : List Nat) : Bool := (e.nodeAt? place).any isRef

mutual

def places : Expr → List (List Nat)
  | lit _ => [[]]
  | ref _ subscripts => [] :: placesFrom 0 subscripts
  | unary _ operand => [] :: (places operand).map (0 :: ·)
  | binary _ left right => [] :: ((places left).map (0 :: ·) ++ (places right).map (1 :: ·))
  | call _ arguments => [] :: placesFrom 0 arguments
  | cond condition whenTrue whenFalse =>
    [] :: ((places condition).map (0 :: ·) ++ (places whenTrue).map (1 :: ·) ++
      (places whenFalse).map (2 :: ·))
  | der operand => [] :: (places operand).map (0 :: ·)
  | pre operand => [] :: (places operand).map (0 :: ·)
  | foreign _ => [[]]
termination_by structural e => e

/-- The places in a list of parts of which the first has the number `k`. -/
def placesFrom (k : Nat) : List Expr → List (List Nat)
  | [] => []
  | e :: rest => (places e).map (k :: ·) ++ placesFrom (k + 1) rest
termination_by structural es => es

end

variable {c : Context} {e part : Expr} {kind : Expr → Bool} {place : List Nat} {i k : Nat}

/-! ### Which places there are -/

theorem places_eq (e : Expr) : e.places = [] :: placesFrom 0 e.parts := by
  cases e <;> simp [places, placesFrom, parts]

theorem mem_placesFrom {es : List Expr} : place ∈ placesFrom k es ↔
    ∃ i part, es[i]? = some part ∧ ∃ inner ∈ part.places, (k + i) :: inner = place := by
  induction es generalizing k with
  | nil => simp [placesFrom]
  | cons e rest ih =>
    rw [placesFrom, List.mem_append, List.mem_map, ih]
    constructor
    · rintro (hfirst | ⟨i, part, hpart, inner, hinner, rfl⟩)
      · exact ⟨0, e, rfl, hfirst⟩
      · exact ⟨i + 1, part, hpart, inner, hinner, by rw [Nat.add_right_comm, Nat.add_assoc]⟩
    · rintro ⟨i, part, hpart, inner, hinner, rfl⟩
      cases i with
      | zero =>
        obtain rfl : e = part := Option.some.inj hpart
        exact .inl ⟨inner, hinner, rfl⟩
      | succ i =>
        exact .inr ⟨i, part, hpart, inner, hinner, by rw [Nat.add_right_comm, Nat.add_assoc]⟩

theorem mem_places : place ∈ e.places ↔ ∃ node, e.nodeAt? place = some node := by
  induction place generalizing e with
  | nil => simp [places_eq, nodeAt?]
  | cons i inner ih =>
    rw [places_eq, List.mem_cons, mem_placesFrom, or_iff_right (List.cons_ne_nil i inner), nodeAt?]
    simp only [Option.bind_eq_some_iff]
    constructor
    · rintro ⟨j, part, hpart, _, hinner, hplace⟩
      obtain ⟨rfl, rfl⟩ := List.cons.inj hplace
      obtain ⟨node, hnode⟩ := ih.mp hinner
      exact ⟨node, part, by rwa [Nat.zero_add], hnode⟩
    · rintro ⟨node, part, hpart, hnode⟩
      exact ⟨i, part, hpart, inner, ih.mpr ⟨node, hnode⟩, by rw [Nat.zero_add]⟩

theorem placesFrom_increase {es : List Expr} (h : ∀ e ∈ es, e.places.Pairwise (· < ·)) (k : Nat) :
    (placesFrom k es).Pairwise (· < ·) := by
  induction es generalizing k with
  | nil => exact .nil
  | cons e rest ih =>
    rw [List.forall_mem_cons] at h
    rw [placesFrom, List.pairwise_append, List.pairwise_map]
    refine ⟨h.1.imp List.cons_lt_cons_self.mpr, ih h.2 (k + 1), ?_⟩
    intro first hfirst later hlater
    obtain ⟨inner, _, rfl⟩ := List.mem_map.mp hfirst
    obtain ⟨i, part, _, inner', _, rfl⟩ := mem_placesFrom.mp hlater
    exact List.cons_lt_cons_iff.mpr (.inl (by omega))

theorem places_increase (e : Expr) : e.places.Pairwise (· < ·) := by
  induction e using partsInduction with
  | _ e ih =>
    rw [places_eq, List.pairwise_cons]
    refine ⟨fun place hplace => ?_, placesFrom_increase ih 0⟩
    obtain ⟨i, _, _, inner, _, rfl⟩ := mem_placesFrom.mp hplace
    exact List.nil_lt_cons _ _

/-! ### What is above a place -/

theorem not_below_root : ¬ e.Below kind [] := by
  rintro ⟨above, node, habove, hne, _⟩
  exact hne (List.prefix_nil.mp habove)

theorem below_cons (hpart : e.parts[i]? = some part) :
    e.Below kind (i :: place) ↔ kind e = true ∨ part.Below kind place := by
  constructor
  · rintro ⟨above, node, habove, hne, hnode, hkind⟩
    cases above with
    | nil =>
      obtain rfl := Option.some.inj hnode
      exact .inl hkind
    | cons j above =>
      obtain ⟨rfl, hprefix⟩ := List.cons_prefix_cons.mp habove
      rw [nodeAt?, hpart, Option.bind_some] at hnode
      exact .inr ⟨above, node, hprefix, fun h => hne (h ▸ rfl), hnode, hkind⟩
  · rintro (hkind | ⟨above, node, habove, hne, hnode, hkind⟩)
    · exact ⟨[], e, List.nil_prefix, (List.cons_ne_nil i place).symm, rfl, hkind⟩
    · refine ⟨i :: above, node, List.cons_prefix_cons.mpr ⟨rfl, habove⟩, ?_, ?_, hkind⟩
      · exact fun h => hne (List.cons.inj h).2
      · rwa [nodeAt?, hpart, Option.bind_some]

/-- What an expression in the context has at the place. -/
structure Has (c : Context) (e : Expr) (place : List Nat) (n : NodeAt) : Prop where
  node : e.nodeAt? place = some n.node
  inDer : n.context.inDer = true ↔ c.inDer = true ∨ e.Below isDer place
  inPre : n.context.inPre = true ↔ c.inPre = true ∨ e.Below isPre place

theorem Has.root (c : Context) (e : Expr) : Has c e [] ⟨e, c⟩ where
  node := rfl
  inDer := (or_iff_left not_below_root).symm
  inPre := (or_iff_left not_below_root).symm

theorem Has.step {n : NodeAt} (hpart : e.parts[i]? = some part)
    (h : Has (c.under e) part place n) : Has c e (i :: place) n where
  node := by rw [nodeAt?, hpart, Option.bind_some, h.node]
  inDer := by rw [h.inDer, below_cons hpart, Context.under, Bool.or_eq_true, or_assoc]
  inPre := by rw [h.inPre, below_cons hpart, Context.under, Bool.or_eq_true, or_assoc]

theorem placesFrom_parts {es : List Expr}
    (h : ∀ part ∈ e.parts, ∀ c, List.Forall₂ (Has c part) part.places (part.nodesIn c))
    (hes : e.parts.drop k = es) :
    List.Forall₂ (Has c e) (placesFrom k es) (es.flatMap (nodesIn (c.under e))) := by
  induction es generalizing k with
  | nil => exact .nil
  | cons part rest ih =>
    have hpart : e.parts[k]? = some part := by rw [← List.head?_drop, hes, List.head?_cons]
    have hrest : e.parts.drop (k + 1) = rest := by rw [← List.tail_drop, hes, List.tail_cons]
    rw [placesFrom, List.flatMap_cons]
    refine Forall₂.append ?_ (ih hrest)
    rw [List.forall₂_map_left_iff]
    exact (h part (List.mem_of_getElem? hpart) (c.under e)).imp fun _ _ hn => hn.step hpart

/-- The nodes in pre-order are those at the places, in the contexts that the places show. -/
theorem places_nodesIn (c : Context) (e : Expr) :
    List.Forall₂ (Has c e) e.places (e.nodesIn c) := by
  induction e using partsInduction generalizing c with
  | _ e ih =>
    rw [places_eq, nodesIn_eq]
    exact .cons (Has.root c e) (placesFrom_parts ih List.drop_zero)

/-! ### The traversals -/

/-- The reference at a place, with what is above it. -/
structure HasSite (e : Expr) (place : List Nat) (site : RefSite) : Prop where
  node : e.nodeAt? place = some site.expr
  inDer : site.inDer = true ↔ e.Below isDer place
  inPre : site.inPre = true ↔ e.Below isPre place

theorem Has.site {n : NodeAt} (h : Has .top e place n) :
    ∀ site ∈ n.site?, HasSite e place site := by
  obtain ⟨node, context⟩ := n
  intro site hsite
  cases node with
  | ref name subscripts =>
    obtain rfl := Option.some.inj hsite
    exact ⟨h.node, by simpa [Context.top] using h.inDer, by simpa [Context.top] using h.inPre⟩
  | _ => cases hsite

theorem Has.isRefAt {n : NodeAt} (h : Has c e place n) : e.isRefAt place = n.site?.isSome := by
  obtain ⟨node, context⟩ := n
  rw [Expr.isRefAt, h.node]
  cases node <;> rfl

theorem forall₂_sites {ps : List (List Nat)} {ns : List NodeAt}
    (h : List.Forall₂ (Has .top e) ps ns) :
    List.Forall₂ (HasSite e) (ps.filter e.isRefAt) (ns.filterMap NodeAt.site?) := by
  induction h with
  | nil => exact .nil
  | @cons place n ps ns hn _ ih =>
    have hkept := hn.isRefAt
    cases hsite : n.site? with
    | none =>
      rw [hsite] at hkept
      rw [List.filter_cons_of_neg (by simp [hkept]), List.filterMap_cons_none hsite]
      exact ih
    | some site =>
      rw [hsite] at hkept
      rw [List.filter_cons_of_pos hkept, List.filterMap_cons_some hsite]
      exact .cons (hn.site site hsite) ih

theorem map_expr_sites (ns : List NodeAt) :
    (ns.filterMap NodeAt.site?).map RefSite.expr = (ns.map (·.node)).filter isRef := by
  have hsite : ∀ n : NodeAt, n.site?.map RefSite.expr = Option.guard isRef n.node := by
    rintro ⟨node, context⟩
    cases node <;> rfl
  rw [List.map_filterMap, ← List.filterMap_eq_filter, List.filterMap_map]
  exact congrArg (List.filterMap · ns) (funext hsite)

/-- Both traversals go through an expression without foreign nodes in pre-order. They visit every
place once. The references are those among the nodes, those in subscripts included, and each one is
marked as below `der` or `pre` exactly if such a node is above it, however the two are nested. -/
theorem traversals_in_preorder (e : Expr) (h : e.Known) :
    ∃ nodes sites, e.walk = .ok nodes ∧ e.refs = .ok sites ∧ nodes = e.nodes ∧
      e.places.Pairwise (· < ·) ∧
      (∀ place, place ∈ e.places ↔ ∃ node, e.nodeAt? place = some node) ∧
      List.Forall₂ (fun place node => e.nodeAt? place = some node) e.places nodes ∧
      sites.map RefSite.expr = nodes.filter isRef ∧
      List.Forall₂ (HasSite e) (e.places.filter e.isRefAt) sites := by
  have hplaces := places_nodesIn .top e
  have hnodes := map_node_nodesIn .top e
  refine ⟨e.nodes, e.sites false false, walk_eq h, refs_eq h, rfl, places_increase e,
    fun _ => mem_places, ?_⟩
  rw [show e.sites false false = (e.nodesIn .top).filterMap NodeAt.site? from
    sites_eq_filterMap .top e]
  refine ⟨?_, by rw [map_expr_sites, hnodes], forall₂_sites hplaces⟩
  rw [← hnodes, List.forall₂_map_right_iff]
  exact hplaces.imp fun _ _ hn => hn.node

/-- The expression `der(pre(x[i + 1])) + pre(max(x, der(y))) * z`. -/
def entwined : Expr :=
  .binary .add (.der (.pre (.ref "x" [.binary .add (.var "i") (.lit (.int 1))])))
    (.binary .mul (.pre (.call .max [.var "x", .der (.var "y")])) (.var "z"))

/-- The index `i` is below both operators like the reference it is in, and so is `y`, though the
operators are the other way round there. -/
theorem entwined_in_preorder : entwined.Known ∧ ∃ nodes sites, entwined.walk = .ok nodes ∧
    entwined.refs = .ok sites ∧ nodes.length = 14 ∧
    List.Forall₂ (HasSite entwined)
      [[0, 0, 0], [0, 0, 0, 0, 0], [1, 0, 0, 0], [1, 0, 0, 1, 0], [1, 1]] sites ∧
    sites.map (fun site => (site.name, site.inDer, site.inPre)) =
      [("x", true, true), ("i", true, true), ("x", false, true), ("y", true, true),
        ("z", false, false)] := by
  have hknown : entwined.Known := by simp [entwined, Known, KnownAll, var]
  obtain ⟨nodes, sites, hwalk, hrefs, rfl, _, _, _, _, hsites⟩ :=
    traversals_in_preorder entwined hknown
  obtain rfl : sites = entwined.sites false false :=
    Except.ok.inj (hrefs.symm.trans (refs_eq hknown))
  exact ⟨hknown, _, _, hwalk, hrefs, rfl, hsites, rfl⟩

end Expr

end Causality
