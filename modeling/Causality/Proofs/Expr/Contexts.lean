import Causality.Affine
import Causality.Model.Splitting
import Causality.Proofs.Expr.Sites

/-!
# Nodes in context

The nodes of an expression in pre-order, each with the operators above it: derivatives, left limits
and reductions. What the traversals of an expression list, count or look for is told from these
nodes one by one, whichever way the traversals go.
-/

namespace Causality

/-- The operators above a node. -/
structure Context where
  inDer : Bool
  inPre : Bool
  inReduction : Bool

structure NodeAt where
  node : Expr
  context : Context

namespace Expr

def isPre : Expr → Bool
  | pre _ => true
  | _ => false

end Expr

namespace Context

def top : Context := ⟨false, false, false⟩

/-- The context of the direct subexpressions of a node. -/
def under (c : Context) (e : Expr) : Context where
  inDer := c.inDer || e.isDer
  inPre := c.inPre || e.isPre
  inReduction := c.inReduction || e.isReduction

/-- Every operator of the one is in the other. -/
structure Within (c d : Context) : Prop where
  inDer : c.inDer = true → d.inDer = true
  inPre : c.inPre = true → d.inPre = true
  inReduction : c.inReduction = true → d.inReduction = true

theorem within_refl (c : Context) : c.Within c := ⟨id, id, id⟩

theorem within_under (c : Context) (e : Expr) : c.Within (c.under e) :=
  ⟨fun h => by simp [under, h], fun h => by simp [under, h], fun h => by simp [under, h]⟩

theorem Within.trans {c d f : Context} (h : c.Within d) (h' : d.Within f) : c.Within f :=
  ⟨h'.inDer ∘ h.inDer, h'.inPre ∘ h.inPre, h'.inReduction ∘ h.inReduction⟩

end Context

namespace Expr

mutual

/-- The nodes of an expression that stands in the context, in pre-order. -/
def nodesIn (c : Context) : Expr → List NodeAt
  | lit value => [⟨lit value, c⟩]
  | ref name subscripts =>
    ⟨ref name subscripts, c⟩ :: nodesInAll (c.under (ref name subscripts)) subscripts
  | unary op operand => ⟨unary op operand, c⟩ :: nodesIn (c.under (unary op operand)) operand
  | binary op left right =>
    ⟨binary op left right, c⟩ :: (nodesIn (c.under (binary op left right)) left ++
      nodesIn (c.under (binary op left right)) right)
  | call function arguments =>
    ⟨call function arguments, c⟩ :: nodesInAll (c.under (call function arguments)) arguments
  | cond condition whenTrue whenFalse =>
    ⟨cond condition whenTrue whenFalse, c⟩ ::
      (nodesIn (c.under (cond condition whenTrue whenFalse)) condition ++
        nodesIn (c.under (cond condition whenTrue whenFalse)) whenTrue ++
        nodesIn (c.under (cond condition whenTrue whenFalse)) whenFalse)
  | der operand => ⟨der operand, c⟩ :: nodesIn (c.under (der operand)) operand
  | pre operand => ⟨pre operand, c⟩ :: nodesIn (c.under (pre operand)) operand
  | foreign kind => [⟨foreign kind, c⟩]
termination_by structural e => e

def nodesInAll (c : Context) : List Expr → List NodeAt
  | [] => []
  | e :: rest => nodesIn c e ++ nodesInAll c rest
termination_by structural es => es

end

variable {c : Context} {e : Expr} {n : NodeAt}

theorem nodesInAll_eq (es : List Expr) : nodesInAll c es = es.flatMap (nodesIn c) := by
  induction es with
  | nil => rfl
  | cons e rest ih => rw [nodesInAll, ih, List.flatMap_cons]

theorem nodesIn_eq (c : Context) (e : Expr) :
    e.nodesIn c = ⟨e, c⟩ :: e.parts.flatMap (nodesIn (c.under e)) := by
  cases e <;> simp [nodesIn, parts, nodesInAll_eq]

theorem map_node_nodesIn (c : Context) (e : Expr) : (e.nodesIn c).map (·.node) = e.nodes := by
  induction e using partsInduction generalizing c with
  | _ e ih =>
    rw [nodesIn_eq, nodes_eq, List.map_cons, List.map_flatMap]
    exact congrArg (e :: ·) (List.flatMap_congr fun part hpart => ih part hpart (c.under e))

theorem within_of_mem_nodesIn (h : n ∈ e.nodesIn c) : c.Within n.context := by
  induction e using partsInduction generalizing c with
  | _ e ih =>
    rw [nodesIn_eq, List.mem_cons] at h
    rcases h with rfl | h
    · exact c.within_refl
    · obtain ⟨part, hpart, hn⟩ := List.mem_flatMap.mp h
      exact (c.within_under e).trans (ih part hpart hn)

end Expr

/-! ### References -/

def NodeAt.site? (n : NodeAt) : Option RefSite :=
  match n.node with
  | .ref name subscripts => some ⟨name, subscripts, n.context.inDer, n.context.inPre⟩
  | _ => none

namespace Expr

variable {c : Context} {e : Expr} {n : NodeAt}

theorem sites_eq_parts (c : Context) (e : Expr) : e.sites c.inDer c.inPre =
    (NodeAt.mk e c).site?.toList ++
      e.parts.flatMap (sites (c.under e).inDer (c.under e).inPre) := by
  cases e <;> simp [sites, NodeAt.site?, parts, sitesAll_eq, Context.under, isDer, isPre]

/-- The references with the operators above them are those among the nodes. -/
theorem sites_eq_filterMap (c : Context) (e : Expr) :
    e.sites c.inDer c.inPre = (e.nodesIn c).filterMap NodeAt.site? := by
  induction e using partsInduction generalizing c with
  | _ e ih =>
    have hparts : e.parts.flatMap (sites (c.under e).inDer (c.under e).inPre) =
        (e.parts.flatMap (nodesIn (c.under e))).filterMap NodeAt.site? := by
      rw [List.filterMap_flatMap]
      exact List.flatMap_congr fun part hpart => ih part hpart (c.under e)
    rw [sites_eq_parts, hparts, nodesIn_eq, List.filterMap_cons]
    cases (NodeAt.mk e c).site? <;> rfl

/-- The names at the sites are those of the nodes that are references. -/
theorem exists_site_iff {name : String} : (∃ site ∈ e.sites false false, site.name = name) ↔
    ∃ subscripts, .ref name subscripts ∈ e.nodes := by
  have hsites : e.sites false false = (e.nodesIn .top).filterMap NodeAt.site? :=
    sites_eq_filterMap .top e
  rw [hsites, ← map_node_nodesIn .top e]
  simp only [List.mem_filterMap, List.mem_map]
  constructor
  · rintro ⟨site, ⟨⟨node, context⟩, hn, hsite⟩, rfl⟩
    cases node with
    | ref name subscripts =>
      obtain rfl := Option.some.inj hsite
      exact ⟨subscripts, _, hn, rfl⟩
    | _ => cases hsite
  · rintro ⟨subscripts, ⟨node, context⟩, hn, rfl⟩
    exact ⟨_, ⟨_, hn, rfl⟩, rfl⟩

theorem mem_elementwiseNames_of_part {name : String} {part : Expr}
    (hreduction : e.isReduction = false) (hpart : part ∈ e.parts)
    (h : name ∈ part.elementwiseNames) : name ∈ e.elementwiseNames := by
  have hall : ∀ es : List Expr, part ∈ es → name ∈ elementwiseNamesAll es := by
    intro es hes
    induction es with
    | nil => cases hes
    | cons first rest ih =>
      rw [elementwiseNamesAll, List.mem_append]
      rcases List.mem_cons.mp hes with rfl | hes
      · exact .inl h
      · exact .inr (ih hes)
  cases e with
  | ref name subscripts => exact List.mem_cons_of_mem _ (hall subscripts hpart)
  | call function arguments =>
    rw [elementwiseNames, if_neg (Bool.eq_false_iff.mp hreduction)]
    exact hall arguments hpart
  | lit value => cases hpart
  | foreign kind => cases hpart
  | _ =>
    simp only [parts, List.mem_cons, List.not_mem_nil, or_false] at hpart
    grind [elementwiseNames]

/-- The references outside of reductions are to the names that are read element by element. -/
theorem mem_elementwiseNames {name : String} {subscripts : List Expr} (hn : n ∈ e.nodesIn c)
    (hnode : n.node = .ref name subscripts) (hreduction : n.context.inReduction = false) :
    name ∈ e.elementwiseNames := by
  induction e using partsInduction generalizing c with
  | _ e ih =>
    rw [nodesIn_eq, List.mem_cons] at hn
    rcases hn with rfl | hn
    · obtain rfl : e = .ref name subscripts := hnode
      exact List.mem_cons_self
    · obtain ⟨part, hpart, hn⟩ := List.mem_flatMap.mp hn
      refine mem_elementwiseNames_of_part ?_ hpart (ih part hpart hn)
      have hwithin := (within_of_mem_nodesIn hn).inReduction
      by_contra hred
      have habove : (c.under e).inReduction = true := by
        simp [Context.under, Bool.not_eq_false _ ▸ hred]
      rw [hwithin habove] at hreduction
      cases hreduction

end Expr

end Causality
