import Causality.Proofs.Block.Uniqueness

/-!
# Blocks under other names and places

Equations that get other ids and other positions fall into the same blocks. The order of the blocks
stays as it is, too, if the positions follow it: whatever was first among the ready components is
still the first.
-/

namespace Causality

def Entry.rename (f : String → String) (q : String → Nat) (e : Entry) : Entry :=
  { e with id := f e.id, position := q e.id }

def Block.rename (f : String → String) (q : String → Nat) (b : Block) : Block :=
  { b with entries := b.entries.map (Entry.rename f q) }

/-- The position of the first member, if `q` tells the positions. -/
def keyBy (q : String → Nat) (c : List String) : Int := (c.head?.map fun u => (q u : Int)).getD 0

theorem Dispatched.rekey {γ : Type} {link : γ → γ → Prop} {key key' : γ → Int} {xs : List γ}
    (h : Dispatched link key xs) (hkey : xs.Pairwise fun c d => key c < key d → key' c < key' d) :
    Dispatched link key' xs := by
  induction xs with
  | nil => trivial
  | cons c rest ih =>
    obtain ⟨hready, hfirst, hrest⟩ := h
    rw [List.pairwise_cons] at hkey
    exact ⟨hready, fun d hd hd' => hkey.1 d hd (hfirst d hd hd'), ih hrest hkey.2⟩

def Assignment.rename (a : Assignment) (f : String → String) (h : (a.ids.map f).Nodup) :
    Assignment where
  pairs := a.pairs.map fun p => (f p.1, p.2)
  nodup := by simpa [Assignment.ids, Function.comp_def] using h

namespace Incidence

/-- The entries of `g'` are those of `g` with the ids that `f` and the positions that `q` gives. -/
structure Renames (g g' : Incidence) (f : String → String) (q : String → Nat) : Prop where
  perm : g'.entries.Perm (g.entries.map (Entry.rename f q))
  inj : ∀ u ∈ g.ids, ∀ v ∈ g.ids, f u = f v → u = v

variable {g g' : Incidence} {f : String → String} {q : String → Nat} {a : Assignment}
  {slots : List Occurrence} {order : List (List String)} {u v x y : String} {slot : Occurrence}
  {hn : (a.ids.map f).Nodup} {parts : List (List (Entry × Occurrence))} {bs : List Block}

namespace Renames

theorem mem_iff (h : g.Renames g' f q) {e' : Entry} :
    e' ∈ g'.entries ↔ ∃ e ∈ g.entries, e.rename f q = e' := by
  rw [h.perm.mem_iff, List.mem_map]

theorem perm_ids (h : g.Renames g' f q) : g'.ids.Perm (g.ids.map f) := by
  have hperm := h.perm.map Entry.id
  rw [List.map_map] at hperm
  rwa [ids, ids, List.map_map]

theorem nodup_ids (h : g.Renames g' f q) (hids : g.ids.Nodup) : g'.ids.Nodup := by
  rw [h.perm_ids.nodup_iff]
  exact hids.map_on h.inj

theorem nodup_assigned (h : g.Renames g' f q) (ha : g.IsMatching slots a) :
    (a.ids.map f).Nodup := by
  apply a.nodup_ids.map_on
  intro u hu v hv
  exact h.inj u (ha.mem_ids hu) v (ha.mem_ids hv)

theorem placeIn_eq (h : g.Renames g' f q) (hids : g.ids.Nodup) (hu : u ∈ g.ids) :
    placeIn g'.position? (f u) = q u := by
  obtain ⟨e, he, rfl⟩ := Incidence.mem_ids.mp hu
  exact placeIn_of_mem (h.nodup_ids hids) (h.mem_iff.mpr ⟨e, he, rfl⟩)

theorem mem_pairs : (x, slot) ∈ (a.rename f hn).pairs ↔ ∃ u, (u, slot) ∈ a.pairs ∧ f u = x := by
  simp [Assignment.rename]

theorem slots_rename : (a.rename f hn).slots = a.slots := by
  simp [Assignment.rename, Assignment.slots, Function.comp_def]

theorem ids_rename : (a.rename f hn).ids = a.ids.map f := by
  simp [Assignment.rename, Assignment.ids, Function.comp_def]

theorem reference_iff (h : g.Renames g' f q) (hv : v ∈ g.ids) :
    (∃ e ∈ g'.entries, e.id = f v ∧ slot ∈ e.references) ↔
      ∃ e ∈ g.entries, e.id = v ∧ slot ∈ e.references := by
  constructor
  · intro hreference
    obtain ⟨e', he', hid, hslot⟩ := hreference
    obtain ⟨e, he, rfl⟩ := h.mem_iff.mp he'
    exact ⟨e, he, h.inj _ (Incidence.mem_ids.mpr ⟨e, he, rfl⟩) v hv hid, hslot⟩
  · intro hreference
    obtain ⟨e, he, rfl, hslot⟩ := hreference
    exact ⟨e.rename f q, h.mem_iff.mpr ⟨e, he, rfl⟩, rfl, hslot⟩

theorem isMatching (h : g.Renames g' f q) (ha : g.IsMatching slots a) :
    g'.IsMatching slots (a.rename f hn) where
  reference x slot hx := by
    obtain ⟨u, hu, rfl⟩ := mem_pairs.mp hx
    exact (h.reference_iff (ha.mem_ids (Assignment.mem_ids.mpr ⟨slot, hu⟩))).mpr
      (ha.reference u slot hu)
  mem_slots := by
    rw [slots_rename]
    exact ha.mem_slots
  nodup := by
    rw [slots_rename]
    exact ha.nodup

theorem isPerfect (h : g.Renames g' f q) (ha : g.IsPerfect slots a) :
    g'.IsPerfect slots (a.rename f hn) where
  toIsMatching := h.isMatching ha.toIsMatching
  covers e' he' := by
    obtain ⟨e, he, rfl⟩ := h.mem_iff.mp he'
    rw [ids_rename]
    exact List.mem_map_of_mem (ha.covers e he)
  used := by
    rw [slots_rename]
    exact ha.used

theorem slots_eq (h : g.Renames g' f q) (v : Variable) : v.slots g' = v.slots g := by
  have hdifferentiates : ∀ element, g'.differentiates element = g.differentiates element := by
    intro element
    rw [differentiates, h.perm.any_eq, List.any_map]
    rfl
  have hconstrains : ∀ element, g'.constrains element = g.constrains element := by
    intro element
    rw [constrains, h.perm.any_eq, List.any_map]
    rfl
  have helements : ∀ element, v.elementSlots g' element = v.elementSlots g element := by
    intro element
    rw [Variable.elementSlots, Variable.elementSlots, hdifferentiates, hconstrains]
  unfold Variable.slots
  rw [funext helements]

/-! ### Edges and classes -/

theorem feeds_iff (h : g.Renames g' f q) (ha : g.IsMatching slots a) (hu : u ∈ g.ids)
    (hv : v ∈ g.ids) : g'.Feeds (a.rename f hn) (f u) (f v) ↔ g.Feeds a u v := by
  constructor
  · intro hfeeds
    obtain ⟨hne, hassigned, slot, hslot, hreference⟩ := hfeeds
    obtain ⟨w, hw, hwu⟩ := mem_pairs.mp hslot
    obtain rfl := h.inj w (ha.mem_ids (Assignment.mem_ids.mpr ⟨slot, hw⟩)) u hu hwu
    rw [ids_rename] at hassigned
    obtain ⟨z, hz, hzv⟩ := List.mem_map.mp hassigned
    obtain rfl := h.inj z (ha.mem_ids hz) v hv hzv
    exact ⟨fun huv => hne (congrArg f huv), hz, slot, hw, (h.reference_iff hv).mp hreference⟩
  · intro hfeeds
    obtain ⟨hne, hassigned, slot, hslot, hreference⟩ := hfeeds
    refine ⟨fun huv => hne (h.inj u hu v hv huv), ?_, slot, mem_pairs.mpr ⟨u, hslot, rfl⟩,
      (h.reference_iff hv).mpr hreference⟩
    rw [ids_rename]
    exact List.mem_map_of_mem hassigned

theorem edge_iff (h : g.Renames g' f q) (ha : g.IsMatching slots a) (hu : u ∈ g.ids)
    (hv : v ∈ g.ids) : (g'.dependencies (a.rename f hn)).Edge (f u) (f v) ↔
      (g.dependencies a).Edge u v := by
  rw [edge_dependencies ha.nodup, edge_dependencies (h.isMatching ha).nodup, h.feeds_iff ha hu hv]

theorem reaches_of_reaches (h : g.Renames g' f q) (ha : g.IsMatching slots a)
    (huv : (g.dependencies a).Reaches u v) :
    (g'.dependencies (a.rename f hn)).Reaches (f u) (f v) := by
  induction huv with
  | refl => exact .refl
  | @tail w z _ hedge ih =>
    have hfeeds := (edge_dependencies ha.nodup).mp hedge
    exact ih.tail ((h.edge_iff ha (ha.mem_ids hfeeds.source) (ha.mem_ids hfeeds.assigned)).mpr
      hedge)

/-- Only renamed equations are reached from a renamed one. -/
theorem exists_of_reaches (h : g.Renames g' f q) (ha : g.IsMatching slots a) (hu : u ∈ g.ids)
    (hreaches : (g'.dependencies (a.rename f hn)).Reaches (f u) y) :
    ∃ v ∈ g.ids, f v = y ∧ (g.dependencies a).Reaches u v := by
  induction hreaches with
  | refl => exact ⟨u, hu, rfl, .refl⟩
  | @tail w z _ hedge ih =>
    obtain ⟨w, hw, rfl, huw⟩ := ih
    have hfeeds := (edge_dependencies (h.isMatching ha).nodup).mp hedge
    have hz := hfeeds.assigned
    rw [ids_rename] at hz
    obtain ⟨z, hza, rfl⟩ := List.mem_map.mp hz
    exact ⟨z, ha.mem_ids hza, rfl, huw.tail ((h.edge_iff ha hw (ha.mem_ids hza)).mp hedge)⟩

theorem reaches_iff (h : g.Renames g' f q) (ha : g.IsMatching slots a) (hu : u ∈ g.ids)
    (hv : v ∈ g.ids) : (g'.dependencies (a.rename f hn)).Reaches (f u) (f v) ↔
      (g.dependencies a).Reaches u v := by
  constructor
  · intro hreaches
    obtain ⟨w, hw, hwv, huw⟩ := h.exists_of_reaches ha hu hreaches
    rwa [← h.inj w hw v hv hwv]
  · exact h.reaches_of_reaches ha

variable (hids : g.ids.Nodup) (h : g.Renames g' f q) (ha : g.IsMatching slots a)
  (horder : g.IsOrder a order)

include h ha horder in
theorem map_inj {c d : List String} (hc : c ∈ order) (hd : d ∈ order)
    (hcd : c.map f = d.map f) : c = d := by
  obtain ⟨u, hu⟩ := List.exists_mem_of_ne_nil c fun hnil => horder.nonempty (hnil ▸ hc)
  have hfu : f u ∈ d.map f := hcd ▸ List.mem_map_of_mem hu
  obtain ⟨v, hv, hvu⟩ := List.mem_map.mp hfu
  obtain rfl :=
    h.inj v (ha.mem_ids (horder.mem_ids hd hv)) u (ha.mem_ids (horder.mem_ids hc hu)) hvu
  exact horder.class_unique hc hd hu hv

include h ha horder in
theorem linked_iff {c d : List String} (hc : c ∈ order) (hd : d ∈ order) :
    (g'.dependencies (a.rename f hn)).Linked (c.map f) (d.map f) ↔
      (g.dependencies a).Linked c d := by
  have hmem : ∀ {c u}, c ∈ order → u ∈ c → u ∈ g.ids :=
    fun hc hu => ha.mem_ids (horder.mem_ids hc hu)
  constructor
  · intro hlinked
    obtain ⟨x, hx, y, hy, hxy⟩ := hlinked
    obtain ⟨u, hu, rfl⟩ := List.mem_map.mp hx
    obtain ⟨v, hv, rfl⟩ := List.mem_map.mp hy
    exact ⟨u, hu, v, hv, (h.edge_iff ha (hmem hc hu) (hmem hd hv)).mp hxy⟩
  · intro hlinked
    obtain ⟨u, hu, v, hv, huv⟩ := hlinked
    exact ⟨f u, List.mem_map_of_mem hu, f v, List.mem_map_of_mem hv,
      (h.edge_iff ha (hmem hc hu) (hmem hd hv)).mpr huv⟩

include hids h ha horder in
theorem keyOf_map {c : List String} (hc : c ∈ order) :
    keyOf g'.position? (c.map f) = keyBy q c := by
  cases c with
  | nil => exact absurd hc horder.nonempty
  | cons u rest =>
    exact h.placeIn_eq hids (ha.mem_ids (horder.mem_ids hc List.mem_cons_self))

include h ha horder in
/-- The classes are those of the equations that reach each other under the new names. -/
theorem mem_map_iff {c : List String} (hc : c ∈ order) (hu : u ∈ c) : y ∈ c.map f ↔
    (g'.dependencies (a.rename f hn)).Reaches (f u) y ∧
      (g'.dependencies (a.rename f hn)).Reaches y (f u) := by
  have hug := ha.mem_ids (horder.mem_ids hc hu)
  rw [List.mem_map]
  constructor
  · intro hy
    obtain ⟨v, hv, rfl⟩ := hy
    have hvg := ha.mem_ids (horder.mem_ids hc hv)
    rw [h.reaches_iff ha hug hvg, h.reaches_iff ha hvg hug]
    exact (horder.connected c hc u hu v).mp hv
  · intro hy
    obtain ⟨v, hvg, rfl, huv⟩ := h.exists_of_reaches ha hug hy.1
    exact ⟨v, (horder.connected c hc u hu v).mpr ⟨huv, (h.reaches_iff ha hvg hug).mp hy.2⟩, rfl⟩

include hids h ha horder in
/-- Where the new positions follow the order, it is the order of the renamed equations. -/
theorem isOrder (hsorted : ∀ c ∈ order, c.Pairwise fun u v => q u ≤ q v)
    (hdispatched : Dispatched (g.dependencies a).Linked (keyBy q) order) :
    g'.IsOrder (a.rename f hn) (order.map fun c => c.map f) where
  perm := by
    rw [ids_rename, ← List.map_flatten]
    exact horder.perm.map f
  nonempty := by
    intro hnil
    obtain ⟨c, hc, hempty⟩ := List.mem_map.mp hnil
    rw [List.map_eq_nil_iff] at hempty
    exact horder.nonempty (hempty ▸ hc)
  connected := by
    intro d hd x hx y
    obtain ⟨c, hc, rfl⟩ := List.mem_map.mp hd
    obtain ⟨u, hu, rfl⟩ := List.mem_map.mp hx
    exact h.mem_map_iff ha horder hc hu
  sorted := by
    intro d hd
    obtain ⟨c, hc, rfl⟩ := List.mem_map.mp hd
    rw [List.pairwise_map]
    apply (hsorted c hc).imp_of_mem
    intro u v hu hv huv
    rw [h.placeIn_eq hids (ha.mem_ids (horder.mem_ids hc hu)),
      h.placeIn_eq hids (ha.mem_ids (horder.mem_ids hc hv))]
    omega
  dispatched := by
    apply Dispatched.map
    · intro c hc d hd
      exact h.map_inj ha horder hc hd
    · apply hdispatched.congr
      · intro c hc d hd _
        exact (h.linked_iff ha horder hc hd).symm
      · intro c hc
        exact (h.keyOf_map hids ha horder hc).symm

/-! ### Blocks -/

include h in
theorem isMember {p : Entry × Occurrence} (hp : g.IsMember a u p) :
    g'.IsMember (a.rename f hn) (f u) (p.1.rename f q, p.2) where
  mem := h.mem_iff.mpr ⟨p.1, hp.mem, rfl⟩
  id_eq := congrArg f hp.id_eq
  assigned := mem_pairs.mpr ⟨u, hp.assigned, rfl⟩

theorem ofMembers_rename {part : List (Entry × Occurrence)} {b : Block}
    (hb : Block.ofMembers part = .ok b) :
    Block.ofMembers (part.map fun p => (p.1.rename f q, p.2)) = .ok (b.rename f q) := by
  obtain ⟨solution, hsolution, rfl⟩ := Block.ofMembers_eq_ok.mp hb
  rw [Block.ofMembers_eq_ok]
  have hsame : Block.kindOf (part.map fun p => (p.1.rename f q, p.2)) = Block.kindOf part ∧
      Block.solutionOf (part.map fun p => (p.1.rename f q, p.2)) = Block.solutionOf part := by
    match part with
    | [] => exact ⟨rfl, rfl⟩
    | [_] => exact ⟨rfl, rfl⟩
    | _ :: _ :: _ => exact ⟨rfl, rfl⟩
  refine ⟨solution, hsame.2 ▸ hsolution, ?_⟩
  rw [hsame.1]
  simp [Block.rename, Function.comp_def]

include hids h ha in
theorem decomposed (hd : g.Decomposed a order parts bs)
    (hsorted : ∀ c ∈ order, c.Pairwise fun u v => q u ≤ q v)
    (hdispatched : Dispatched (g.dependencies a).Linked (keyBy q) order) :
    g'.Decomposed (a.rename f hn) (order.map fun c => c.map f)
      (parts.map fun part => part.map fun p => (p.1.rename f q, p.2))
      (bs.map (Block.rename f q)) where
  isOrder := h.isOrder hids ha hd.isOrder hsorted hdispatched
  members := by
    rw [List.forall₂_map_left_iff, List.forall₂_map_right_iff]
    apply hd.members.imp
    intro c part hpart
    rw [List.forall₂_map_left_iff, List.forall₂_map_right_iff]
    exact hpart.imp fun _ _ hp => h.isMember hp
  blocks := by
    rw [List.forall₂_map_left_iff, List.forall₂_map_right_iff]
    exact hd.blocks.imp fun _ _ hb => ofMembers_rename hb

/-! ### Blocks in another order -/

include hids h ha in
theorem exists_block {order' : List (List String)} {parts' : List (List (Entry × Occurrence))}
    {bs' : List Block} {b : Block} (hd : g.Decomposed a order parts bs)
    (hd' : g'.Decomposed (a.rename f hn) order' parts' bs') (hb : b ∈ bs) :
    ∃ b' ∈ bs', (b.rename f q).SameMembers b' := by
  obtain ⟨part, hpart, hofMembers⟩ := Forall₂.exists_left hd.blocks hb
  obtain ⟨c, hc, hmembers⟩ := Forall₂.exists_left hd.members hpart
  obtain ⟨u, hu⟩ := List.exists_mem_of_ne_nil c fun hnil => hd.isOrder.nonempty (hnil ▸ hc)
  have hassigned : f u ∈ (a.rename f hn).ids := by
    rw [ids_rename]
    exact List.mem_map_of_mem (hd.isOrder.mem_ids hc hu)
  obtain ⟨c', hc', huc'⟩ := hd'.isOrder.exists_mem hassigned
  have hclass : c'.Perm (c.map f) := by
    have hinj : ∀ u ∈ c, ∀ v ∈ c, f u = f v → u = v := by
      intro u hu v hv
      exact h.inj u (ha.mem_ids (hd.isOrder.mem_ids hc hu)) v
        (ha.mem_ids (hd.isOrder.mem_ids hc hv))
    rw [List.perm_ext_iff_of_nodup (hd'.isOrder.nodup hc') ((hd.isOrder.nodup hc).map_on hinj)]
    intro y
    rw [h.mem_map_iff ha hd.isOrder hc hu]
    exact hd'.isOrder.connected c' hc' (f u) huc' y
  obtain ⟨part', hpart', hmembers'⟩ := Forall₂.exists_right hd'.members hc'
  obtain ⟨b', hb', hofMembers'⟩ := Forall₂.exists_right hd'.blocks hpart'
  have hrenamed : List.Forall₂ (g'.IsMember (a.rename f hn)) (c.map f)
      (part.map fun p => (p.1.rename f q, p.2)) := by
    rw [List.forall₂_map_left_iff, List.forall₂_map_right_iff]
    exact hmembers.imp fun _ _ hp => h.isMember hp
  obtain ⟨members, hall, hperm⟩ := List.perm_comp_forall₂ hclass hrenamed
  obtain rfl : members = part' := List.right_unique_forall₂'
    (fun _ _ _ hp hp' => hp.unique (h.nodup_ids hids) hp') hall hmembers'
  exact ⟨b', hb', Block.sameMembers_of_perm hperm (ofMembers_rename hofMembers) hofMembers'⟩

end Renames

/-! ### Positions that follow an order -/

/-- The equations that are `first` by declaration are numbered as the order has them. All others
stay behind them, where they were. -/
structure Follows (g : Incidence) (first : String → Prop) (q : String → Nat)
    (order : List (List String)) : Prop where
  ranked : order.flatten.Pairwise fun u v => first u → first v → q u < q v
  ahead : ∀ u ∈ g.ids, ∀ v ∈ g.ids, first u → ¬ first v →
    placeIn g.position? u < placeIn g.position? v ∧ q u < q v
  kept : ∀ u ∈ g.ids, ¬ first u → (q u : Int) = placeIn g.position? u

namespace Follows

variable {first : String → Prop}

theorem le_of_le (h : g.Follows first q order) (hu : u ∈ g.ids) (hv : v ∈ g.ids)
    (hranked : first u → first v → q u < q v)
    (hle : placeIn g.position? u ≤ placeIn g.position? v) : q u ≤ q v := by
  by_cases hfu : first u
  · by_cases hfv : first v
    · exact (hranked hfu hfv).le
    · exact (h.ahead u hu v hv hfu hfv).2.le
  · by_cases hfv : first v
    · have hlt := (h.ahead v hv u hu hfv hfu).1
      omega
    · have hku := h.kept u hu hfu
      have hkv := h.kept v hv hfv
      omega

theorem lt_of_lt (h : g.Follows first q order) (hu : u ∈ g.ids) (hv : v ∈ g.ids)
    (hranked : first u → first v → q u < q v)
    (hlt : placeIn g.position? u < placeIn g.position? v) : q u < q v := by
  by_cases hfu : first u
  · by_cases hfv : first v
    · exact hranked hfu hfv
    · exact (h.ahead u hu v hv hfu hfv).2
  · by_cases hfv : first v
    · have hgt := (h.ahead v hv u hu hfv hfu).1
      omega
    · have hku := h.kept u hu hfu
      have hkv := h.kept v hv hfv
      omega

theorem sorted (h : g.Follows first q order) (ha : g.IsMatching slots a)
    (horder : g.IsOrder a order) : ∀ c ∈ order, c.Pairwise fun u v => q u ≤ q v := by
  intro c hc
  have hranked := (List.pairwise_flatten.mp h.ranked).1 c hc
  apply (hranked.and (horder.sorted c hc)).imp_of_mem
  intro u v hu hv huv
  exact h.le_of_le (ha.mem_ids (horder.mem_ids hc hu)) (ha.mem_ids (horder.mem_ids hc hv)) huv.1
    huv.2

/-- The first members decide, and these follow the order. -/
theorem dispatched (h : g.Follows first q order) (ha : g.IsMatching slots a)
    (horder : g.IsOrder a order) : Dispatched (g.dependencies a).Linked (keyBy q) order := by
  apply horder.dispatched.rekey
  apply (List.pairwise_flatten.mp h.ranked).2.imp_of_mem
  intro c d hc hd hcd hlt
  cases c with
  | nil => exact absurd hc horder.nonempty
  | cons u c =>
    cases d with
    | nil => exact absurd hd horder.nonempty
    | cons v d =>
      have hu := ha.mem_ids (horder.mem_ids hc List.mem_cons_self)
      have hv := ha.mem_ids (horder.mem_ids hd List.mem_cons_self)
      have hq := h.lt_of_lt hu hv (hcd u List.mem_cons_self v List.mem_cons_self) hlt
      change (q u : Int) < q v
      omega

end Follows

end Incidence

end Causality
