import Causality.Proofs.Digraph.Components
import Causality.Proofs.Digraph.Degrees
import Causality.Proofs.Fallible

/-!
# Order of components

The components of a graph can be ordered whenever every vertex has a position. They are then
dispatched: the earliest first member goes first among the components that no other one left has
an edge to.
-/

namespace Causality

variable {position : String → Option Int} {c d : List String} {cs : List (List String)}
  {u v : String} {i j : Nat}

/-! ### Members by position -/

def placeIn (position : String → Option Int) (v : String) : Int := (position v).getD 0

def byPlace (position : String → Option Int) (c : List String) : List String :=
  ((c.map fun v => (placeIn position v, v)).mergeSort fun a b => a.1 ≤ b.1).map (·.2)

theorem perm_byPlace (position : String → Option Int) (c : List String) :
    (byPlace position c).Perm c := by
  refine ((List.mergeSort_perm _ _).map _).trans ?_
  simp [Function.comp_def]

theorem mem_byPlace : v ∈ byPlace position c ↔ v ∈ c := (perm_byPlace position c).mem_iff

theorem byPlace_ne_nil (h : c ≠ []) : byPlace position c ≠ [] :=
  fun hnil => h (List.perm_nil.mp (hnil ▸ perm_byPlace position c).symm)

theorem pairwise_mergeSort {α : Type} (key : α → Int) (xs : List α) :
    (xs.mergeSort fun a b => key a ≤ key b).Pairwise fun a b => key a ≤ key b := by
  have htrans : ∀ a b c : α, decide (key a ≤ key b) = true → decide (key b ≤ key c) = true →
      decide (key a ≤ key c) = true := by
    intro a b c hab hbc
    rw [decide_eq_true_eq] at hab hbc ⊢
    exact Int.le_trans hab hbc
  have htotal : ∀ a b : α, (decide (key a ≤ key b) || decide (key b ≤ key a)) = true := by
    intro a b
    simpa using Int.le_total (key a) (key b)
  exact (List.pairwise_mergeSort htrans htotal xs).imp fun h => by simpa using h

theorem pairwise_byPlace :
    (byPlace position c).Pairwise fun u v => placeIn position u ≤ placeIn position v := by
  rw [byPlace, List.pairwise_map]
  refine (pairwise_mergeSort Prod.fst (c.map fun v => (placeIn position v, v))).imp_of_mem ?_
  rintro ⟨p, u⟩ ⟨q, v⟩ hu hv hle
  simp only [List.mem_mergeSort, List.mem_map, Prod.mk.injEq] at hu hv
  obtain ⟨_, _, rfl, rfl⟩ := hu
  obtain ⟨_, _, rfl, rfl⟩ := hv
  exact hle

theorem placeOf_eq_ok (h : (position v).isSome) :
    placeOf position v = .ok (placeIn position v) := by
  obtain ⟨p, hp⟩ := Option.isSome_iff_exists.mp h
  simp [placeOf, placeIn, hp]

theorem sortMembers_eq_ok (h : ∀ v ∈ c, (position v).isSome) :
    sortMembers position c = .ok (byPlace position c) := by
  have hplaced : c.mapM (fun v => do return (← placeOf position v, v)) =
      Except.ok (c.map fun v => (placeIn position v, v)) := by
    refine mapM_eq_ok_map fun v hv => ?_
    rw [placeOf_eq_ok (h v hv)]
    rfl
  rw [sortMembers, hplaced]
  rfl

def keyOf (position : String → Option Int) (c : List String) : Int :=
  (c.head?.map (placeIn position)).getD 0

theorem firstPlace_eq_ok (hne : c ≠ []) (h : ∀ v ∈ c, (position v).isSome) :
    firstPlace position c = .ok (keyOf position c) := by
  obtain ⟨v, rest, rfl⟩ := List.exists_cons_of_ne_nil hne
  exact placeOf_eq_ok (h v List.mem_cons_self)

/-! ### Numbers of components -/

theorem number_unique (hn : cs.flatten.Nodup) (hi : i < cs.length) (hj : j < cs.length)
    (hvi : v ∈ cs[i]) (hvj : v ∈ cs[j]) : i = j := by
  have hdisjoint := List.pairwise_iff_getElem.mp (List.nodup_flatten.mp hn).2
  rcases Nat.lt_trichotomy i j with h | h | h
  · exact absurd hvj (hdisjoint i j hi hj h hvi)
  · exact h
  · exact absurd hvi (hdisjoint j i hj hi h hvj)

theorem componentOf_eq_ok (hn : cs.flatten.Nodup) :
    componentOf cs v = .ok i ↔ ∃ h : i < cs.length, v ∈ cs[i] := by
  have hmem : ∀ c k, (c, k) ∈ cs.zipIdx.reverse ↔ cs[k]? = some c := by
    intro c k
    rw [List.mem_reverse, List.mem_zipIdx_iff_getElem?]
  unfold componentOf
  generalize hfind : cs.zipIdx.reverse.find? _ = found
  cases found with
  | none =>
    simp only [reduceCtorEq, false_iff, not_exists]
    intro hi hvi
    have hnone := List.find?_eq_none.mp hfind (cs[i], i)
      ((hmem _ _).mpr (List.getElem?_eq_getElem hi))
    simp [hvi] at hnone
  | some found =>
    obtain ⟨c, k⟩ := found
    have hc := (hmem c k).mp (List.mem_of_find?_eq_some hfind)
    have hvc : v ∈ c := by simpa using List.find?_some hfind
    obtain ⟨hk, rfl⟩ := List.getElem?_eq_some_iff.mp hc
    simp only [Except.ok.injEq]
    constructor
    · rintro rfl
      exact ⟨hk, hvc⟩
    · rintro ⟨hi, hvi⟩
      exact number_unique hn hk hi hvc hvi

namespace Digraph

variable {g : Digraph String} {roots : List String}

theorem edge_iff (hrows : (g.rows.map (·.1)).Nodup) :
    g.Edge u v ↔ ∃ ws, (u, ws) ∈ g.rows ∧ v ∈ ws := by
  rw [Edge, successors]
  constructor
  · intro h
    cases hl : g.rows.lookup u with
    | none => simp [hl] at h
    | some ws =>
      obtain ⟨_, _, hsplit, _⟩ := List.lookup_eq_some_iff.mp hl
      rw [hl, Option.getD_some] at h
      exact ⟨ws, by simp [hsplit], h⟩
  · rintro ⟨ws, hws, hv⟩
    have hl : g.rows.lookup u = some ws := by
      obtain ⟨front, back, hsplit⟩ := List.append_of_mem hws
      refine List.lookup_eq_some_iff.mpr ⟨front, back, hsplit, fun p hp => ?_⟩
      rw [hsplit, List.map_append, List.nodup_append] at hrows
      simpa using (hrows.2.2 p.1 (List.mem_map_of_mem hp) u (by simp)).symm
    rw [hl]
    exact hv

/-- The link that the edge from `u` to `w` makes. -/
def MakesLink (cs : List (List String)) (u w : String) (l : Link) : Prop :=
  componentOf cs u = .ok l.source ∧ componentOf cs w = .ok l.target

theorem links_eq_ok {ls : List Link} : g.links cs = .ok ls ↔
    ∃ parts, List.Forall₂ (fun row part => List.Forall₂ (MakesLink cs row.1) row.2 part)
      g.rows parts ∧ parts.flatten = ls := by
  have hlink : ∀ u w (l : Link), (do
      let source ← componentOf cs u
      let target ← componentOf cs w
      return (⟨source, target⟩ : Link)) = Except.ok l ↔ MakesLink cs u w l := by
    intro u w l
    simp only [bind_eq_ok, pure_eq_ok]
    constructor
    · intro h
      obtain ⟨_, hi, _, hj, rfl⟩ := h
      exact ⟨hi, hj⟩
    · intro h
      exact ⟨_, h.1, _, h.2, rfl⟩
  unfold links
  simp only [bind_eq_ok, mapM_eq_ok, pure_eq_ok] at hlink ⊢
  simp only [hlink]

theorem links_ok (hrows : (g.rows.map (·.1)).Nodup) (hn : cs.flatten.Nodup)
    (hmem : ∀ u v, g.Edge u v → u ∈ cs.flatten ∧ v ∈ cs.flatten) :
    ∃ links, g.links cs = .ok links ∧ ∀ i j, ⟨i, j⟩ ∈ links ↔
      ∃ u v, g.Edge u v ∧ componentOf cs u = .ok i ∧ componentOf cs v = .ok j := by
  have hnumber : ∀ v ∈ cs.flatten, ∃ i, componentOf cs v = .ok i := by
    intro v hv
    obtain ⟨c, hc, hvc⟩ := List.mem_flatten.mp hv
    obtain ⟨i, hi, rfl⟩ := List.mem_iff_getElem.mp hc
    exact ⟨i, (componentOf_eq_ok hn).mpr ⟨hi, hvc⟩⟩
  have hlink : ∀ u w, g.Edge u w → ∃ l, MakesLink cs u w l := by
    intro u w huw
    obtain ⟨i, hi⟩ := hnumber u (hmem u w huw).1
    obtain ⟨j, hj⟩ := hnumber w (hmem u w huw).2
    exact ⟨⟨i, j⟩, hi, hj⟩
  have hrow : ∀ row ∈ g.rows, ∃ part, List.Forall₂ (MakesLink cs row.1) row.2 part := by
    intro row hrow
    exact exists_forall₂ fun w hw => hlink row.1 w ((edge_iff hrows).mpr ⟨row.2, hrow, hw⟩)
  obtain ⟨parts, hparts⟩ := exists_forall₂ hrow
  refine ⟨parts.flatten, links_eq_ok.mpr ⟨parts, hparts, rfl⟩, fun i j => ?_⟩
  rw [List.mem_flatten]
  constructor
  · intro h
    obtain ⟨part, hpart, hl⟩ := h
    obtain ⟨⟨u, ws⟩, hrow, hpart⟩ := Forall₂.exists_left hparts hpart
    obtain ⟨w, hw, hi, hj⟩ := Forall₂.exists_left hpart hl
    exact ⟨u, w, (edge_iff hrows).mpr ⟨ws, hrow, hw⟩, hi, hj⟩
  · intro h
    obtain ⟨u, w, huw, hi, hj⟩ := h
    obtain ⟨ws, hrow, hw⟩ := (edge_iff hrows).mp huw
    obtain ⟨part, hpart, hws⟩ := Forall₂.exists_right hparts hrow
    obtain ⟨⟨k, l⟩, hl, hk, hl'⟩ := Forall₂.exists_right hws hw
    obtain rfl : i = k := Except.ok.inj (hi.symm.trans hk)
    obtain rfl : j = l := Except.ok.inj (hj.symm.trans hl')
    exact ⟨part, hpart, hl⟩

theorem perm_flatten_byPlace : ((cs.map (byPlace position)).flatten).Perm cs.flatten := by
  induction cs with
  | nil => exact .refl _
  | cons c cs ih => exact (perm_byPlace position c).append ih

theorem AreComponents.sorted (h : g.AreComponents roots cs)
    (position : String → Option Int) : g.AreComponents roots (cs.map (byPlace position)) where
  nodup := perm_flatten_byPlace.nodup_iff.mpr h.nodup
  nonempty := by
    intro hnil
    obtain ⟨c, hc, hempty⟩ := List.mem_map.mp hnil
    exact byPlace_ne_nil (fun hnil => h.nonempty (hnil ▸ hc)) hempty
  mem_iff v := by rw [perm_flatten_byPlace.mem_iff, h.mem_iff]
  connected := by
    intro c hc u hu v
    obtain ⟨e, he, rfl⟩ := List.mem_map.mp hc
    rw [mem_byPlace] at hu ⊢
    exact h.connected e he u hu v
  forward := by
    rw [List.pairwise_map]
    exact h.forward.imp fun hcd u hu v hv => hcd u (mem_byPlace.mp hu) v (mem_byPlace.mp hv)

/-- Some member of the one component has an edge to some member of the other. -/
def Linked (g : Digraph String) (c d : List String) : Prop := ∃ u ∈ c, ∃ v ∈ d, g.Edge u v

structure Ordered (g : Digraph String) (position : String → Option Int)
    (components order : List (List String)) : Prop where
  perm : order.Perm (components.map (byPlace position))
  dispatched : Dispatched g.Linked (keyOf position) order

/-- Disjoint classes of vertices with all edges among them, and a place for each vertex. -/
structure Placed (g : Digraph String) (position : String → Option Int)
    (classes : List (List String)) : Prop where
  nodup : classes.flatten.Nodup
  nonempty : [] ∉ classes
  rows : (g.rows.map (·.1)).Nodup
  closed : ∀ u v, g.Edge u v → u ∈ classes.flatten ∧ v ∈ classes.flatten
  known : ∀ v ∈ classes.flatten, (position v).isSome
  injective : ∀ u ∈ classes.flatten, ∀ v ∈ classes.flatten, position u = position v → u = v

theorem exists_mem_keyOf (position : String → Option Int) (hc : c ≠ []) :
    ∃ v ∈ c, keyOf position c = placeIn position v := by
  obtain ⟨v, rest, rfl⟩ := List.exists_cons_of_ne_nil hc
  exact ⟨v, List.mem_cons_self, rfl⟩

/-- The place of the first member by position. -/
def earliest (position : String → Option Int) (c : List String) : Int :=
  keyOf position (byPlace position c)

theorem exists_mem_earliest (position : String → Option Int) (hc : c ≠ []) :
    ∃ v ∈ c, earliest position c = placeIn position v := by
  have hne : byPlace position c ≠ [] := byPlace_ne_nil hc
  obtain ⟨v, hv, hkey⟩ := exists_mem_keyOf position hne
  exact ⟨v, mem_byPlace.mp hv, hkey⟩

theorem linked_byPlace : g.Linked (byPlace position c) (byPlace position d) ↔ g.Linked c d := by
  simp only [Linked, mem_byPlace]

/-! ### Ranked classes -/

def ranked (position : String → Option Int) (cs : List (List String)) : List Ranked :=
  cs.zipIdx.map fun (c, i) => ⟨i, earliest position c, byPlace position c⟩

theorem all_eq_ranked : Ranked.all (cs.map (byPlace position))
    ((cs.map (byPlace position)).map (keyOf position)) = ranked position cs := by
  rw [Ranked.all, ranked]
  refine List.ext_getElem (by simp) fun i _ _ => ?_
  simp [earliest]

theorem index_ranked (position : String → Option Int) (cs : List (List String)) :
    (ranked position cs).map (·.index) = List.range cs.length := by
  rw [ranked, List.map_map, List.range_eq_range']
  exact List.zipIdx_map_snd 0 cs

def classOf (cs : List (List String)) (e : Ranked) : List String := cs.getD e.index []

theorem mem_ranked {e : Ranked} (he : e ∈ ranked position cs) :
    (∃ hi : e.index < cs.length, cs[e.index] = classOf cs e) ∧
      e.members = byPlace position (classOf cs e) ∧ e.key = earliest position (classOf cs e) := by
  obtain ⟨⟨c, i⟩, hci, rfl⟩ := List.mem_map.mp he
  have hc : cs[i]? = some c := List.mem_zipIdx_iff_getElem?.mp hci
  have hclass : classOf cs ⟨i, earliest position c, byPlace position c⟩ = c := by
    rw [classOf, List.getD_eq_getElem?_getD, hc, Option.getD_some]
  dsimp only
  rw [hclass]
  exact ⟨List.getElem?_eq_some_iff.mp hc, rfl, rfl⟩

theorem classOf_ranked : (ranked position cs).map (classOf cs) = cs := by
  refine List.ext_getElem (by simp [ranked]) fun i _ hi => ?_
  simp [ranked, classOf, hi]

namespace Placed

variable {e f : Ranked} {links : List Link} (h : g.Placed position cs)

include h

theorem placeIn_inj (hu : u ∈ cs.flatten) (hv : v ∈ cs.flatten)
    (heq : placeIn position u = placeIn position v) : u = v := by
  obtain ⟨p, hp⟩ := Option.isSome_iff_exists.mp (h.known u hu)
  obtain ⟨q, hq⟩ := Option.isSome_iff_exists.mp (h.known v hv)
  rw [placeIn, placeIn, hp, hq] at heq
  exact h.injective u hu v hv (by rw [hp, hq]; exact congrArg some heq)

theorem ne_nil (hc : c ∈ cs) : c ≠ [] := fun hnil => h.nonempty (hnil ▸ hc)

theorem class_unique (hc : c ∈ cs) (hd : d ∈ cs) (hvc : v ∈ c) (hvd : v ∈ d) : c = d := by
  obtain ⟨i, hi, rfl⟩ := List.mem_iff_getElem.mp hc
  obtain ⟨j, hj, rfl⟩ := List.mem_iff_getElem.mp hd
  obtain rfl := number_unique h.nodup hi hj hvc hvd
  rfl

theorem earliest_inj (hc : c ∈ cs) (hd : d ∈ cs)
    (heq : earliest position c = earliest position d) : c = d := by
  obtain ⟨u, hu, hukey⟩ := exists_mem_earliest position (h.ne_nil hc)
  obtain ⟨v, hv, hvkey⟩ := exists_mem_earliest position (h.ne_nil hd)
  obtain rfl := h.placeIn_inj (List.mem_flatten_of_mem hc hu) (List.mem_flatten_of_mem hd hv)
    (hukey.symm.trans (heq.trans hvkey))
  exact h.class_unique hc hd hu hv

theorem byPlace_inj (hc : c ∈ cs) (hd : d ∈ cs)
    (heq : byPlace position c = byPlace position d) : c = d :=
  h.earliest_inj hc hd (congrArg (keyOf position) heq)

theorem nodup_classes : cs.Nodup := by
  refine (List.nodup_flatten.mp h.nodup).2.imp_of_mem ?_
  rintro c d hc _ hdisjoint rfl
  obtain ⟨v, hv⟩ := List.exists_mem_of_ne_nil c (h.ne_nil hc)
  exact hdisjoint hv hv

theorem classOf_inj (he : e ∈ ranked position cs) (hf : f ∈ ranked position cs)
    (heq : classOf cs e = classOf cs f) : e = f := by
  have hnodup : ((ranked position cs).map (classOf cs)).Nodup := by
    rw [classOf_ranked]
    exact h.nodup_classes
  exact List.inj_on_of_nodup_map hnodup he hf heq

theorem distinct : Ranked.Distinct (ranked position cs) where
  index := by
    rw [index_ranked]
    exact List.nodup_range
  key := by
    have hnodup : (cs.map (earliest position)).Nodup :=
      List.Nodup.map_on (fun c hc d hd => h.earliest_inj hc hd) h.nodup_classes
    have hkey : (ranked position cs).map (·.key) = cs.map (earliest position) := by
      rw [ranked, List.map_map]
      conv_rhs => rw [← List.zipIdx_map_fst 0 cs, List.map_map]
      rfl
    rwa [hkey]

theorem componentOf_iff (he : e ∈ ranked position cs) :
    componentOf (cs.map (byPlace position)) v = .ok e.index ↔ v ∈ classOf cs e := by
  obtain ⟨⟨hi, hclass⟩, -⟩ := mem_ranked he
  rw [componentOf_eq_ok (perm_flatten_byPlace.nodup_iff.mpr h.nodup), ← hclass]
  simp [hi, mem_byPlace]

theorem target_iff (hlinks : ∀ i j, ⟨i, j⟩ ∈ links ↔ ∃ u v, g.Edge u v ∧
      componentOf (cs.map (byPlace position)) u = .ok i ∧
      componentOf (cs.map (byPlace position)) v = .ok j)
    (he : e ∈ ranked position cs) (hf : f ∈ ranked position cs) :
    ⟨e.index, f.index⟩ ∈ links ↔ g.Linked (classOf cs e) (classOf cs f) := by
  simp only [hlinks, h.componentOf_iff he, h.componentOf_iff hf]
  constructor
  · rintro ⟨u, v, huv, hu, hv⟩
    exact ⟨u, hu, v, hv, huv⟩
  · rintro ⟨u, hu, v, hv, huv⟩
    exact ⟨u, v, huv, hu, hv⟩

theorem sorted_ok : cs.mapM (sortMembers position) = .ok (cs.map (byPlace position)) :=
  mapM_eq_ok_map fun c hc =>
    sortMembers_eq_ok fun v hv => h.known v (List.mem_flatten.mpr ⟨c, hc, hv⟩)

theorem keys_ok : (cs.map (byPlace position)).mapM (firstPlace position) =
    .ok ((cs.map (byPlace position)).map (keyOf position)) := by
  refine mapM_eq_ok_map fun c hc => ?_
  obtain ⟨d, hd, rfl⟩ := List.mem_map.mp hc
  refine firstPlace_eq_ok (byPlace_ne_nil (h.ne_nil hd)) fun v hv => ?_
  exact h.known v (List.mem_flatten.mpr ⟨d, hd, mem_byPlace.mp hv⟩)

/-- The classes are dispatched, in whatever order the targets of each are gone through. -/
theorem orderComponentsBy_dispatch {enumerate : Nat → List Nat → List Nat}
    (henumerate : ∀ i ts, (enumerate i ts).Perm ts) : ∃ order stuck,
      g.orderComponentsBy enumerate position cs = .ok (order.map (byPlace position)) ∧
        Dispatch g.Linked (earliest position) cs order stuck := by
  have hclosed : ∀ u v, g.Edge u v → u ∈ (cs.map (byPlace position)).flatten ∧
      v ∈ (cs.map (byPlace position)).flatten := by
    intro u v huv
    rw [perm_flatten_byPlace.mem_iff, perm_flatten_byPlace.mem_iff]
    exact h.closed u v huv
  have hnodup : (cs.map (byPlace position)).flatten.Nodup :=
    perm_flatten_byPlace.nodup_iff.mpr h.nodup
  obtain ⟨links, hlinks, hiff⟩ := links_ok h.rows hnodup hclosed
  have hsource : ∀ l ∈ links, l.source ∈ (ranked position cs).map (·.index) := by
    intro l hl
    obtain ⟨u, v, _, hu, _⟩ := (hiff l.source l.target).mp hl
    obtain ⟨hi, _⟩ := (componentOf_eq_ok hnodup).mp hu
    rw [index_ranked]
    simpa using hi
  obtain ⟨hcounts, htarget⟩ := Quotient.counts_ofLinks h.distinct.index hsource
  have hperm := fun i => henumerate i ((Quotient.ofLinks links).targets i)
  have htargets : ∀ i, (enumerate i ((Quotient.ofLinks links).targets i)).Nodup ∧
      i ∉ enumerate i ((Quotient.ofLinks links).targets i) := fun i =>
    ⟨(hperm i).nodup_iff.mpr (hcounts.nodup i), fun hi => hcounts.other i ((hperm i).subset hi)⟩
  obtain ⟨order, stuck, hrun, hdispatch⟩ := Agenda.run_dispatch htargets h.distinct
    (Agenda.start_tracks h.distinct hcounts hperm)
  have hmem : ∀ e ∈ order, e ∈ ranked position cs :=
    fun e he => hdispatch.mem_iff.mpr (.inl he)
  refine ⟨order.map (classOf cs), stuck.map (classOf cs), ?_, ?_⟩
  · have hmembers : order.map (·.members) = (order.map (classOf cs)).map (byPlace position) := by
      rw [List.map_map]
      exact List.map_congr_left fun e he => (mem_ranked (hmem e he)).2.1
    simp only [orderComponentsBy, h.sorted_ok, h.keys_ok, hlinks, bind, Except.bind, pure,
      Except.pure, all_eq_ranked, ← hmembers, ← hrun]
  · have hlinked : ∀ e ∈ ranked position cs, ∀ f ∈ ranked position cs, e ≠ f →
        (f.index ∈ enumerate e.index ((Quotient.ofLinks links).targets e.index) ↔
          g.Linked (classOf cs e) (classOf cs f)) := by
      intro e he f hf hne
      rw [(hperm e.index).mem_iff, htarget, h.target_iff hiff he hf]
      refine and_iff_right fun heq => hne ?_
      exact List.inj_on_of_nodup_map h.distinct.index he hf heq
    have hclasses := (hdispatch.congr (h.distinct.index.of_map _) hlinked fun e he =>
      (mem_ranked he).2.2).map fun e he f hf => h.classOf_inj he hf
    rwa [classOf_ranked] at hclasses

/-- A cycle of strongly connected classes would make them one class. -/
theorem not_trapped_of_connected
    (hconnected : ∀ c ∈ cs, ∀ u ∈ c, ∀ v, v ∈ c ↔ g.Reaches u v ∧ g.Reaches v u) :
    ¬ Trapped g.Linked cs d := by
  have hpath : ∀ c d, Relation.ReflTransGen (LinkWithin g.Linked cs) c d → c ∈ cs →
      ∀ u ∈ c, ∀ v ∈ d, g.Reaches u v := by
    intro c d hcd
    induction hcd with
    | refl =>
      intro hc u hu v hv
      exact ((hconnected c hc u hu v).mp hv).1
    | @tail d e _ hstep ih =>
      intro hc u hu w hw
      obtain ⟨hd, he, _, x, hx, y, hy, hxy⟩ := hstep
      have hyw := ((hconnected e he y hy w).mp hw).1
      exact (ih hc u hu x hx).trans (hxy.reaches.trans hyw)
  rintro ⟨c, hcycle, -⟩
  obtain ⟨d, hstep, hback⟩ := Relation.TransGen.head'_iff.mp hcycle
  obtain ⟨hc, hd, hne, u, hu, v, hv, huv⟩ := hstep
  have hvu := hpath d c hback hd v hv u hu
  exact hne (h.class_unique hc hd ((hconnected c hc u hu v).mpr ⟨huv.reaches, hvu⟩) hv)

theorem dispatch_byPlace {order stuck : List (List String)}
    (hdispatch : Dispatch g.Linked (earliest position) cs order stuck) :
    Dispatch g.Linked (keyOf position) (cs.map (byPlace position)) (order.map (byPlace position))
      (stuck.map (byPlace position)) := by
  refine Dispatch.map (fun c hc d hd => h.byPlace_inj hc hd) ?_
  exact hdispatch.congr h.nodup_classes (fun _ _ _ _ _ => linked_byPlace.symm) fun _ _ => rfl

theorem orderComponents_dispatch : ∃ order stuck,
    g.orderComponents position cs = .ok (order.map (byPlace position)) ∧
      Dispatch g.Linked (earliest position) cs order stuck :=
  h.orderComponentsBy_dispatch fun _ targets => .refl targets

theorem orderComponents_ok
    (hconnected : ∀ c ∈ cs, ∀ u ∈ c, ∀ v, v ∈ c ↔ g.Reaches u v ∧ g.Reaches v u) :
    ∃ order, g.orderComponents position cs = .ok order ∧ g.Ordered position cs order := by
  obtain ⟨order, stuck, horder, hdispatch⟩ := h.orderComponents_dispatch
  have hperm := hdispatch.perm_of_not_trapped fun d _ => h.not_trapped_of_connected hconnected
  exact ⟨_, horder, hperm.map _, (h.dispatch_byPlace hdispatch).dispatched⟩

end Placed

end Digraph

end Causality
