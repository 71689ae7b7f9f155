import Causality.Proofs.Digraph.Order
import Mathlib

/-!
# Least orders

The classes on a cycle of other classes, and those behind one, are never listed. The others are, in
the least order in which every edge between two of them goes forward, however the classes, the edges
and the targets of a class are enumerated. Strongly connected components are on no such cycle, so
none of them gets lost.

The graph at the end is evaluated, which takes equations from many parts of the library.
-/

namespace Causality

variable {position : String → Option Int} {c d : List String} {cs cs' es : List (List String)}
  {u v : String}

/-! ### Classes enumerated in another order -/

/-- The same classes in some order, each with the same members in some order. -/
def Rearranges (cs ds : List (List String)) : Prop :=
  ∃ es, cs.Perm es ∧ List.Forall₂ List.Perm es ds

theorem Rearranges.flatten (h : Rearranges cs cs') : cs.flatten.Perm cs'.flatten := by
  obtain ⟨es, hperm, hmembers⟩ := h
  exact hperm.flatten.trans (List.Perm.flatten_congr hmembers)

theorem Rearranges.exists_mem (h : Rearranges cs cs') (hd : d ∈ cs') : ∃ c ∈ cs, c.Perm d := by
  obtain ⟨es, hperm, hmembers⟩ := h
  obtain ⟨c, hc, hcd⟩ := Forall₂.exists_left hmembers hd
  exact ⟨c, hperm.symm.subset hc, hcd⟩

theorem rearranges_byPlace (hperm : cs.Perm es) : Rearranges cs (es.map (byPlace position)) := by
  refine ⟨es, hperm, ?_⟩
  rw [List.forall₂_map_right_iff, List.forall₂_same]
  exact fun c _ => (perm_byPlace position c).symm

namespace Digraph

variable {g g' : Digraph String} {listed stuck : List (List String)}

theorem linked_congr (hedge : ∀ u v, g'.Edge u v ↔ g.Edge u v) : g'.Linked = g.Linked := by
  funext c d
  simp only [Linked, hedge]

namespace Placed

variable (h : g.Placed position cs)

include h

theorem nodup_class (hc : c ∈ cs) : c.Nodup := (List.nodup_flatten.mp h.nodup).1 c hc

theorem byPlace_eq_of_perm (hc : c ∈ cs) (hcd : c.Perm d) :
    byPlace position c = byPlace position d := by
  have hsorted : (byPlace position c).Perm (byPlace position d) :=
    (perm_byPlace position c).trans (hcd.trans (perm_byPlace position d).symm)
  refine hsorted.eq_of_pairwise ?_ pairwise_byPlace pairwise_byPlace
  intro u v hu hv huv hvu
  refine h.placeIn_inj ?_ ?_ (Int.le_antisymm huv hvu)
  · exact List.mem_flatten_of_mem hc (mem_byPlace.mp hu)
  · exact List.mem_flatten_of_mem hc (hcd.symm.subset (mem_byPlace.mp hv))

theorem sorted_byPlace (hc : c ∈ cs) :
    (byPlace position c).Pairwise fun u v => placeIn position u < placeIn position v := by
  have hnodup : (byPlace position c).Nodup :=
    (perm_byPlace position c).nodup_iff.mpr (h.nodup_class hc)
  refine (pairwise_byPlace.and hnodup).imp_of_mem fun hu hv huv => ?_
  refine lt_of_le_of_ne huv.1 fun heq => huv.2 ?_
  exact h.placeIn_inj (List.mem_flatten_of_mem hc (mem_byPlace.mp hu))
    (List.mem_flatten_of_mem hc (mem_byPlace.mp hv)) heq

theorem rearranged (hedge : ∀ u v, g'.Edge u v ↔ g.Edge u v) (hrows : (g'.rows.map (·.1)).Nodup)
    (hclasses : Rearranges cs cs') : g'.Placed position cs' := by
  have hmem : ∀ v, v ∈ cs'.flatten ↔ v ∈ cs.flatten := fun v => hclasses.flatten.symm.mem_iff
  refine ⟨hclasses.flatten.nodup_iff.mp h.nodup, ?_, hrows, ?_, ?_, ?_⟩
  · intro hnil
    obtain ⟨c, hc, hperm⟩ := hclasses.exists_mem hnil
    exact h.ne_nil hc (List.perm_nil.mp hperm)
  · intro u v huv
    rw [hmem, hmem]
    exact h.closed u v ((hedge u v).mp huv)
  · exact fun v hv => h.known v ((hmem v).mp hv)
  · exact fun u hu v hv => h.injective u ((hmem u).mp hu) v ((hmem v).mp hv)

theorem perm_byPlace_of_rearranges (hclasses : Rearranges cs cs') :
    (cs.map (byPlace position)).Perm (cs'.map (byPlace position)) := by
  obtain ⟨es, hperm, hmembers⟩ := hclasses
  have hsame : es.map (byPlace position) = cs'.map (byPlace position) := by
    refine Forall₂.map_eq (Forall₂.imp_of_mem hmembers fun c hc d _ hcd => ?_)
    exact h.byPlace_eq_of_perm (hperm.symm.subset hc) hcd
  exact hsame ▸ hperm.map _

/-- Another enumeration dispatches the same classes in the same order. -/
theorem orderComponentsBy_eq {enumerate : Nat → List Nat → List Nat} {order : List (List String)}
    (horder : g.orderComponents position cs = .ok order)
    (hedge : ∀ u v, g'.Edge u v ↔ g.Edge u v) (hrows : (g'.rows.map (·.1)).Nodup)
    (hclasses : Rearranges cs cs') (henumerate : ∀ i ts, (enumerate i ts).Perm ts) :
    g'.orderComponentsBy enumerate position cs' = .ok order := by
  have h' := h.rearranged hedge hrows hclasses
  obtain ⟨listed, stuck, hlisted, hdispatch⟩ := h.orderComponents_dispatch
  obtain ⟨listed', stuck', hlisted', hdispatch'⟩ := h'.orderComponentsBy_dispatch henumerate
  obtain rfl := Except.ok.inj (hlisted.symm.trans horder)
  have hdispatch' := h'.dispatch_byPlace hdispatch'
  rw [linked_congr hedge] at hdispatch'
  rw [hlisted', (h.dispatch_byPlace hdispatch).unique hdispatch'
    (h.perm_byPlace_of_rearranges hclasses)]

end Placed

open scoped Classical in
/-- What is listed are the classes that lie on no cycle of other classes and behind none, each with
its members by position. Of all orders in which every edge between two of them goes forward, they
stand in the least one by the positions of the first members. No strongly connected component is
left out. No enumeration of the classes, their members, the rows, the successors or the targets of
a class makes a difference. -/
theorem orderComponents_is_least (h : g.Placed position cs) :
    ∃ order, g.orderComponents position cs = .ok order ∧
      Rearranges (cs.filter fun c => ¬ Trapped g.Linked cs c) order ∧
      (∀ c ∈ order, c.Pairwise fun u v => placeIn position u < placeIn position v) ∧
      (order.Pairwise fun c d => ¬ g.Linked d c) ∧
      (∀ other, other.Perm order → (other.Pairwise fun c d => ¬ g.Linked d c) →
        other = order ∨ order.map (keyOf position) < other.map (keyOf position)) ∧
      ((∀ c ∈ cs, ∀ u ∈ c, ∀ v, v ∈ c ↔ g.Reaches u v ∧ g.Reaches v u) → Rearranges cs order) ∧
      ∀ (g' : Digraph String) (cs' : List (List String)) (enumerate : Nat → List Nat → List Nat),
        (∀ u v, g'.Edge u v ↔ g.Edge u v) → (g'.rows.map (·.1)).Nodup → Rearranges cs cs' →
        (∀ i ts, (enumerate i ts).Perm ts) →
        g'.orderComponentsBy enumerate position cs' = .ok order := by
  obtain ⟨listed, stuck, horder, hdispatch⟩ := h.orderComponents_dispatch
  have hsorted := h.dispatch_byPlace hdispatch
  refine ⟨listed.map (byPlace position), horder, ?_, ?_, ?_, ?_, ?_, ?_⟩
  · apply rearranges_byPlace
    rw [List.perm_ext_iff_of_nodup (h.nodup_classes.filter _) hdispatch.dispatched.nodup]
    intro c
    rw [List.mem_filter, decide_eq_true_eq, hdispatch.mem_order_iff]
  · intro c hc
    obtain ⟨d, hd, rfl⟩ := List.mem_map.mp hc
    exact h.sorted_byPlace (hdispatch.mem_iff.mpr (.inl hd))
  · refine (hsorted.dispatched.forward.and hsorted.dispatched.nodup).imp ?_
    rintro c d ⟨hforward, hne⟩ hback
    exact hne (hforward hback).symm
  · intro other hperm hforward
    exact hsorted.dispatched.eq_or_lt hperm (hforward.imp fun hnot hback => absurd hback hnot)
  · intro hconnected
    apply rearranges_byPlace
    exact (hdispatch.perm_of_not_trapped fun d _ => h.not_trapped_of_connected hconnected).symm
  · intro g' cs' enumerate hedge hrows hclasses henumerate
    exact h.orderComponentsBy_eq horder hedge hrows hclasses henumerate

/-- Two classes on a cycle, one behind them, and an edge against the order of places. -/
def knotted : Digraph String where
  rows := [("e", ["d", "f"]), ("b", ["c", "a", "c"]), ("a", ["c"]), ("d", ["e"]), ("g", ["a"])]

def knottedPlace (v : String) : Option Int :=
  [("b", 0), ("d", 1), ("e", 2), ("a", 3), ("c", 4), ("f", 5), ("g", 6)].lookup v

def knottedClasses : List (List String) := [["f"], ["c", "a"], ["d"], ["g"], ["e"], ["b"]]

theorem placed_knotted : knotted.Placed knottedPlace knottedClasses where
  nodup := by decide
  nonempty := by decide
  rows := by decide
  closed := by
    have hrows : ∀ row ∈ knotted.rows, ∀ v ∈ row.2,
        row.1 ∈ knottedClasses.flatten ∧ v ∈ knottedClasses.flatten := by decide
    intro u v huv
    obtain ⟨ws, hrow, hv⟩ := (edge_iff (by decide)).mp huv
    exact hrows (u, ws) hrow v hv
  known := by decide
  injective := by decide

open scoped Classical in
theorem knotted_order_is_least : knotted.Placed knottedPlace knottedClasses ∧
    knotted.orderComponents knottedPlace knottedClasses = .ok [["b"], ["g"], ["a", "c"]] ∧
    Rearranges (knottedClasses.filter fun c => ¬ Trapped knotted.Linked knottedClasses c)
      [["b"], ["g"], ["a", "c"]] ∧
    knotted.orderComponentsBy (fun _ targets => targets.reverse) knottedPlace
      knottedClasses.reverse = .ok [["b"], ["g"], ["a", "c"]] := by
  obtain ⟨order, horder, hlisted, -, -, -, -, hsame⟩ := orderComponents_is_least placed_knotted
  have hrun : knotted.orderComponents knottedPlace knottedClasses =
      .ok [["b"], ["g"], ["a", "c"]] := by cbv
  obtain rfl := Except.ok.inj (horder.symm.trans hrun)
  refine ⟨placed_knotted, hrun, hlisted, hsame knotted _ _ (fun _ _ => .rfl) (by decide) ?_ ?_⟩
  · exact ⟨knottedClasses.reverse, (List.reverse_perm _).symm,
      List.forall₂_same.mpr fun _ _ => .rfl⟩
  · exact fun _ ts => List.reverse_perm ts

end Digraph

end Causality
