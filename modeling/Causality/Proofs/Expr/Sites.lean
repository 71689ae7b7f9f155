import Causality.Expr.Traversal
import Causality.Proofs.Expr.Plain
import Causality.Proofs.Fallible

/-!
# Nodes and references by recursion

What the traversals list, without the work list: the nodes of a tree, and the references in it with
the operators above them, each in pre-order. The traversals succeed where no node is foreign.
-/

namespace Causality

namespace Expr

mutual

def Known : Expr → Prop
  | lit _ => True
  | ref _ subscripts => KnownAll subscripts
  | unary _ operand => Known operand
  | binary _ left right => Known left ∧ Known right
  | call _ arguments => KnownAll arguments
  | cond condition whenTrue whenFalse => Known condition ∧ Known whenTrue ∧ Known whenFalse
  | der operand => Known operand
  | pre operand => Known operand
  | foreign _ => False
termination_by structural e => e

def KnownAll : List Expr → Prop
  | [] => True
  | e :: rest => Known e ∧ KnownAll rest
termination_by structural es => es

end

mutual

def nodes : Expr → List Expr
  | lit value => [lit value]
  | ref name subscripts => ref name subscripts :: nodesAll subscripts
  | unary op operand => unary op operand :: nodes operand
  | binary op left right => binary op left right :: (nodes left ++ nodes right)
  | call function arguments => call function arguments :: nodesAll arguments
  | cond condition whenTrue whenFalse =>
    cond condition whenTrue whenFalse :: (nodes condition ++ nodes whenTrue ++ nodes whenFalse)
  | der operand => der operand :: nodes operand
  | pre operand => pre operand :: nodes operand
  | foreign kind => [foreign kind]
termination_by structural e => e

def nodesAll : List Expr → List Expr
  | [] => []
  | e :: rest => nodes e ++ nodesAll rest
termination_by structural es => es

end

mutual

def sites (inDer inPre : Bool) : Expr → List RefSite
  | lit _ => []
  | ref name subscripts => ⟨name, subscripts, inDer, inPre⟩ :: sitesAll inDer inPre subscripts
  | unary _ operand => sites inDer inPre operand
  | binary _ left right => sites inDer inPre left ++ sites inDer inPre right
  | call _ arguments => sitesAll inDer inPre arguments
  | cond condition whenTrue whenFalse =>
    sites inDer inPre condition ++ sites inDer inPre whenTrue ++ sites inDer inPre whenFalse
  | der operand => sites true inPre operand
  | pre operand => sites inDer true operand
  | foreign _ => []
termination_by structural e => e

def sitesAll (inDer inPre : Bool) : List Expr → List RefSite
  | [] => []
  | e :: rest => sites inDer inPre e ++ sitesAll inDer inPre rest
termination_by structural es => es

end

theorem size_le_sizes {e : Expr} {es : List Expr} (h : e ∈ es) : e.size ≤ sizes es := by
  induction es with
  | nil => cases h
  | cons first rest ih =>
    rw [sizes]
    rcases List.mem_cons.mp h with rfl | h
    · exact Nat.le_add_right _ _
    · exact Nat.le_trans (ih h) (Nat.le_add_left _ _)

theorem size_lt_of_mem_parts {e part : Expr} (h : part ∈ e.parts) : part.size < e.size :=
  Nat.lt_of_le_of_lt (size_le_sizes h) (sizes_parts_lt e)

/-- A statement holds of all expressions if it holds of one whenever it does of its parts. -/
@[elab_as_elim]
theorem partsInduction {motive : Expr → Prop}
    (h : ∀ e, (∀ part ∈ e.parts, motive part) → motive e) (e : Expr) : motive e := by
  induction hn : e.size using Nat.strongRecOn generalizing e with
  | _ n ih => exact h e fun part hpart => ih _ (hn ▸ size_lt_of_mem_parts hpart) part rfl

theorem knownAll_iff {es : List Expr} : KnownAll es ↔ ∀ e ∈ es, e.Known := by
  induction es with
  | nil => simp [KnownAll]
  | cons e rest ih => rw [KnownAll, ih, List.forall_mem_cons]

theorem nodesAll_eq (es : List Expr) : nodesAll es = es.flatMap nodes := by
  induction es with
  | nil => rfl
  | cons e rest ih => rw [nodesAll, ih, List.flatMap_cons]

theorem sitesAll_eq {inDer inPre : Bool} (es : List Expr) :
    sitesAll inDer inPre es = es.flatMap (sites inDer inPre) := by
  induction es with
  | nil => rfl
  | cons e rest ih => rw [sitesAll, ih, List.flatMap_cons]

mutual

theorem Plain.known (e : Expr) (h : e.Plain) : e.Known := by
  match e with
  | lit value => trivial
  | ref name subscripts =>
    obtain rfl : subscripts = [] := h
    trivial
  | unary op operand =>
    have hoperand := Plain.known operand h
    exact hoperand
  | binary op left right => exact ⟨Plain.known left h.1, Plain.known right h.2⟩
  | call function arguments =>
    have harguments := PlainAll.known arguments h
    exact harguments
  | cond condition whenTrue whenFalse =>
    exact ⟨Plain.known condition h.1, Plain.known whenTrue h.2.1, Plain.known whenFalse h.2.2⟩
  | der operand =>
    have hoperand := Plain.known operand h
    exact hoperand
  | pre operand =>
    have hoperand := Plain.known operand h
    exact hoperand
  | foreign kind => exact absurd h id
termination_by structural e

theorem PlainAll.known (es : List Expr) (h : PlainAll es) : KnownAll es := by
  match es with
  | [] => trivial
  | e :: rest => exact ⟨Plain.known e h.1, PlainAll.known rest h.2⟩
termination_by structural es

end

def isSubscripted : Expr → Bool
  | ref _ (_ :: _) => true
  | _ => false

mutual

theorem Plain.isSubscripted_nodes (e : Expr) (h : e.Plain) :
    ∀ n ∈ e.nodes, n.isSubscripted = false := by
  match e with
  | lit value => exact List.forall_mem_singleton.mpr rfl
  | ref name subscripts =>
    obtain rfl : subscripts = [] := h
    exact List.forall_mem_singleton.mpr rfl
  | unary op operand =>
    exact List.forall_mem_cons.mpr ⟨rfl, Plain.isSubscripted_nodes operand h⟩
  | binary op left right =>
    refine List.forall_mem_cons.mpr ⟨rfl, List.forall_mem_append.mpr ⟨?_, ?_⟩⟩
    · exact Plain.isSubscripted_nodes left h.1
    · exact Plain.isSubscripted_nodes right h.2
  | call function arguments =>
    exact List.forall_mem_cons.mpr ⟨rfl, PlainAll.isSubscripted_nodesAll arguments h⟩
  | cond condition whenTrue whenFalse =>
    refine List.forall_mem_cons.mpr ⟨rfl, ?_⟩
    rw [List.forall_mem_append, List.forall_mem_append]
    refine ⟨⟨?_, ?_⟩, ?_⟩
    · exact Plain.isSubscripted_nodes condition h.1
    · exact Plain.isSubscripted_nodes whenTrue h.2.1
    · exact Plain.isSubscripted_nodes whenFalse h.2.2
  | der operand => exact List.forall_mem_cons.mpr ⟨rfl, Plain.isSubscripted_nodes operand h⟩
  | pre operand => exact List.forall_mem_cons.mpr ⟨rfl, Plain.isSubscripted_nodes operand h⟩
  | foreign kind => exact absurd h id
termination_by structural e

theorem PlainAll.isSubscripted_nodesAll (es : List Expr) (h : PlainAll es) :
    ∀ n ∈ nodesAll es, n.isSubscripted = false := by
  match es with
  | [] => exact List.forall_mem_nil _
  | e :: rest =>
    rw [nodesAll, List.forall_mem_append]
    exact ⟨Plain.isSubscripted_nodes e h.1, PlainAll.isSubscripted_nodesAll rest h.2⟩
termination_by structural es

end

/-! ### The traversals -/

theorem Known.parts {e : Expr} (h : e.Known) : ∀ part ∈ e.parts, part.Known := by
  cases e with
  | lit value => exact List.forall_mem_nil _
  | ref name subscripts => exact knownAll_iff.mp h
  | unary op operand => exact List.forall_mem_singleton.mpr h
  | binary op left right =>
    exact List.forall_mem_cons.mpr ⟨h.1, List.forall_mem_singleton.mpr h.2⟩
  | call function arguments => exact knownAll_iff.mp h
  | cond condition whenTrue whenFalse =>
    refine List.forall_mem_cons.mpr ⟨h.1, List.forall_mem_cons.mpr ⟨h.2.1, ?_⟩⟩
    exact List.forall_mem_singleton.mpr h.2.2
  | der operand => exact List.forall_mem_singleton.mpr h
  | pre operand => exact List.forall_mem_singleton.mpr h
  | foreign kind => exact absurd h id

theorem Known.children_eq {e : Expr} (h : e.Known) : e.children = .ok e.parts := by
  cases e with
  | foreign kind => exact absurd h id
  | _ => rfl

theorem nodes_eq (e : Expr) : e.nodes = e :: e.parts.flatMap nodes := by
  cases e <;> simp [nodes, parts, nodesAll_eq]

theorem self_mem_nodes (e : Expr) : e ∈ e.nodes := by
  rw [nodes_eq]
  exact List.mem_cons_self

theorem mem_nodes_iff {e n : Expr} : n ∈ e.nodes ↔ n = e ∨ ∃ part ∈ e.parts, n ∈ part.nodes := by
  rw [nodes_eq, List.mem_cons, List.mem_flatMap]

theorem walkFrom_eq {pending : List Expr} (h : ∀ e ∈ pending, e.Known) :
    walkFrom pending = .ok (pending.flatMap nodes) := by
  induction hn : sizes pending using Nat.strongRecOn generalizing pending with
  | _ n ih =>
    cases pending with
    | nil =>
      rw [walkFrom]
      rfl
    | cons e rest =>
      rw [List.forall_mem_cons] at h
      have hlater := ih _ (hn ▸ sizes_parts_append_lt e rest)
        (List.forall_mem_append.mpr ⟨h.1.parts, h.2⟩) rfl
      rw [walkFrom, h.1.children_eq, hlater, List.flatMap_cons, e.nodes_eq, List.flatMap_append]
      rfl

theorem walk_eq {e : Expr} (h : e.Known) : e.walk = .ok e.nodes := by
  rw [walk, walkFrom_eq (List.forall_mem_singleton.mpr h)]
  exact congrArg Except.ok (List.append_nil _)

end Expr

namespace Visit

def sites (v : Visit) : List RefSite := v.expr.sites v.inDer v.inPre

theorem sites_eq (v : Visit) : v.sites = v.site?.toList ++ v.below.flatMap sites := by
  obtain ⟨e, inDer, inPre⟩ := v
  cases e <;> simp [sites, Expr.sites, site?, below, Expr.parts, Expr.sitesAll_eq,
    List.flatMap_map]

theorem sitesFrom_eq {pending : List Visit} (h : ∀ v ∈ pending, v.expr.Known) :
    sitesFrom pending = .ok (pending.flatMap sites) := by
  induction hn : Expr.sizes (pending.map (·.expr)) using Nat.strongRecOn
    generalizing pending with
  | _ n ih =>
    cases pending with
    | nil =>
      rw [sitesFrom]
      rfl
    | cons v rest =>
      rw [List.forall_mem_cons] at h
      have hbelow : ∀ w ∈ v.below, w.expr.Known := by
        rw [← List.forall_mem_map, v.map_expr_below]
        exact h.1.parts
      have hlt : Expr.sizes ((v.below ++ rest).map (·.expr)) < n := by
        rw [← hn, List.map_append, v.map_expr_below, List.map_cons]
        exact Expr.sizes_parts_append_lt _ _
      have hlater := ih _ hlt (List.forall_mem_append.mpr ⟨hbelow, h.2⟩) rfl
      rw [sitesFrom, h.1.children_eq, hlater, List.flatMap_cons, v.sites_eq, List.flatMap_append,
        List.append_assoc]
      rfl

end Visit

theorem Expr.refs_eq {e : Expr} (h : e.Known) : e.refs = .ok (e.sites false false) := by
  rw [refs, Visit.sitesFrom_eq (List.forall_mem_singleton.mpr h)]
  exact congrArg Except.ok (List.append_nil _)

end Causality
