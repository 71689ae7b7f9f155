import Causality.Proofs.Block.Renaming
import Causality.Proofs.Incidence.Reordered
import Causality.Proofs.Plan.Stages

/-!
# Round trip of the block order

The continuous equations of a plan in block order are accepted in the place of the declared ones.
The model with these equations has the same blocks, and its continuous entries are in order already.
-/

namespace Causality

namespace Incidence

variable {g : Incidence} {a : Assignment} {slots : List Occurrence} {order : List (List String)}
  {bs : List Block} {parts : List (List (Entry × Occurrence))}

/-! ### New ids and positions -/

/-- The id that an entry has at its place in the list. -/
def placedId (es : List Entry) (id : String) : String :=
  if id ∈ es.map (·.id) then
    Section.continuous.label ++ "[" ++ toString ((es.map (·.id)).idxOf id) ++ "]"
  else id

def placedPosition (g : Incidence) (es : List Entry) (id : String) : Nat :=
  if id ∈ es.map (·.id) then (es.map (·.id)).idxOf id else (placeIn g.position? id).toNat

variable {es : List Entry} {e : Entry} {i : Nat}

theorem placedPosition_of_mem {id : String} (hid : id ∈ es.map (·.id)) :
    g.placedPosition es id = (es.map (·.id)).idxOf id := if_pos hid

theorem placedPosition_of_notMem (hids : g.ids.Nodup) (he : e ∈ g.entries)
    (hid : e.id ∉ es.map (·.id)) : g.placedPosition es e.id = e.position := by
  rw [placedPosition, if_neg hid, placeIn_of_mem hids he, Int.toNat_natCast]

theorem idxOf_id (hn : (es.map (·.id)).Nodup) (hi : i < es.length) :
    (es.map (·.id)).idxOf es[i].id = i := by
  have hlength : i < (es.map (·.id)).length := by rwa [List.length_map]
  have hindex := hn.idxOf_getElem i hlength
  rwa [List.getElem_map] at hindex

theorem pairwise_placedPosition (hn : (es.map (·.id)).Nodup) : es.Pairwise fun e e' =>
    g.placedPosition es e.id < g.placedPosition es e'.id := by
  rw [List.pairwise_iff_getElem]
  intro i j hi hj hij
  rw [placedPosition_of_mem (List.mem_map_of_mem (List.getElem_mem hi)), idxOf_id hn hi,
    placedPosition_of_mem (List.mem_map_of_mem (List.getElem_mem hj)), idxOf_id hn hj]
  exact hij

end Incidence

namespace Model.Sections

variable {m : Model} {includeInitial : Bool} {g : Incidence} {first rest es : List Entry}
  {firstRows restRows : List Row}

section

variable (h : m.Sections includeInitial g first rest firstRows restRows) (hids : g.ids.Nodup)
  (hes : es.Perm first)

include h hes in
theorem perm_append : (es ++ rest).Perm g.entries := by
  rw [h.entries]
  exact hes.append_right rest

include h hids hes in
theorem nodup_append : ((es ++ rest).map (·.id)).Nodup := by
  rw [((h.perm_append hes).map (·.id)).nodup_iff]
  exact hids

include h hids hes in
theorem nodup_first : (es.map (·.id)).Nodup := by
  have hnodup := h.nodup_append hids hes
  rw [List.map_append] at hnodup
  exact (List.nodup_append.mp hnodup).1

include h hids hes in
theorem placed_rename : es.map (Entry.rename (Incidence.placedId es) (g.placedPosition es)) =
    es.zipIdx.map Entry.placed := by
  have hn := h.nodup_first hids hes
  apply List.ext_getElem
  · simp
  · intro i hi _
    rw [List.length_map] at hi
    have hindex := Incidence.idxOf_id hn hi
    have hmem : es[i].id ∈ es.map (·.id) := List.mem_map_of_mem (List.getElem_mem hi)
    simp [Entry.rename, Entry.placed, Incidence.placedId, Incidence.placedPosition, hindex, hmem]

include h hids hes in
theorem positions_placed :
    (es.map (Entry.rename (Incidence.placedId es) (g.placedPosition es))).map (·.position) =
      List.range es.length := by
  rw [h.placed_rename hids hes, List.map_map, List.range_eq_range']
  exact List.zipIdx_map_snd 0 es

include h hids hes in
theorem notMem_of_rest {e : Entry} (he : e ∈ rest) : e.id ∉ es.map (·.id) := by
  have hnodup := h.nodup_append hids hes
  rw [List.map_append] at hnodup
  intro hmem
  exact (List.nodup_append.mp hnodup).2.2 e.id hmem e.id (List.mem_map_of_mem he) rfl

include h in
theorem mem_rest {e : Entry} (he : e ∈ rest) : e ∈ g.entries := by
  rw [h.entries]
  exact List.mem_append_right _ he

include h hids hes in
theorem rest_rename :
    rest.map (Entry.rename (Incidence.placedId es) (g.placedPosition es)) = rest := by
  have hself : ∀ e ∈ rest, e.rename (Incidence.placedId es) (g.placedPosition es) = e := by
    intro e he
    have hnot := h.notMem_of_rest hids hes he
    have hposition := Incidence.placedPosition_of_notMem hids (h.mem_rest he) hnot
    simp only [Entry.rename, Incidence.placedId, if_neg hnot, hposition]
  rw [List.map_congr_left hself, List.map_id']

include h hids hes in
theorem renames (hids' : (Incidence.mk (es.zipIdx.map Entry.placed ++ rest)).ids.Nodup) :
    g.Renames ⟨es.zipIdx.map Entry.placed ++ rest⟩ (Incidence.placedId es)
      (g.placedPosition es) := by
  have hentries : es.zipIdx.map Entry.placed ++ rest =
      (es ++ rest).map (Entry.rename (Incidence.placedId es) (g.placedPosition es)) := by
    rw [List.map_append, h.placed_rename hids hes, h.rest_rename hids hes]
  rw [hentries] at hids' ⊢
  refine ⟨(h.perm_append hes).map _, ?_⟩
  have hnodup : ((es ++ rest).map fun e => Incidence.placedId es e.id).Nodup := by
    rw [Incidence.ids, List.map_map] at hids'
    exact hids'
  intro u hu v hv huv
  obtain ⟨e, he, rfl⟩ := Incidence.mem_ids.mp hu
  obtain ⟨e', he', rfl⟩ := Incidence.mem_ids.mp hv
  have hperm := (h.perm_append hes).symm
  rw [List.inj_on_of_nodup_map hnodup (hperm.subset he) (hperm.subset he') huv]

include h hes in
theorem mem_of_notMem {e : Entry} (he : e ∈ g.entries) (hnot : e.id ∉ es.map (·.id)) :
    e ∈ rest := by
  rw [h.entries] at he
  apply (List.mem_append.mp he).resolve_left
  intro hfirst
  exact hnot (List.mem_map_of_mem (hes.symm.subset hfirst))

include h hes in
theorem mem_of_mem {e : Entry} (he : e ∈ es) : e ∈ g.entries := by
  rw [h.entries]
  exact List.mem_append_left _ (hes.subset he)

include h hids hes in
/-- The entries that moved stay ahead of all others. -/
theorem placed_lt {e e' : Entry} (he : e ∈ es) (he' : e' ∈ rest) :
    e.position < e'.position ∧ g.placedPosition es e.id < g.placedPosition es e'.id := by
  have hlt := h.position_first (hes.subset he)
  have hle := h.position_rest he'
  have hnot := h.notMem_of_rest hids hes he'
  have hid : e.id ∈ es.map (·.id) := List.mem_map_of_mem he
  have hindex := List.idxOf_lt_length_of_mem hid
  rw [List.length_map, hes.length_eq] at hindex
  rw [Incidence.placedPosition_of_mem hid,
    Incidence.placedPosition_of_notMem hids (h.mem_rest he') hnot]
  omega

include h hids hes in
/-- The new positions follow an order whose continuous entries are `es`. -/
theorem follows {order : List (List String)} (all : List Entry)
    (hall : ∀ e ∈ all, e ∈ g.entries) (horder : all.map (·.id) = order.flatten)
    (hfilter : (all.filter fun e => e.origin = .continuous) = es) :
    g.Follows (fun id => id ∈ es.map (·.id)) (g.placedPosition es) order where
  ranked := by
    have hcontinuous : ∀ e ∈ all, e.id ∈ es.map (·.id) → decide (e.origin = .continuous) := by
      intro e he hid
      obtain ⟨x, hx, hxe⟩ := List.mem_map.mp hid
      rw [← hfilter, List.mem_filter] at hx
      rw [← Incidence.entry_unique hids (hall x hx.1) (hall e he) hxe]
      exact hx.2
    have hranked := @Incidence.pairwise_placedPosition g es (h.nodup_first hids hes)
    rw [← hfilter, List.pairwise_filter, hfilter] at hranked
    rw [← horder, List.pairwise_map]
    apply hranked.imp_of_mem
    intro e e' he he' hlt hfe hfe'
    exact hlt (hcontinuous e he hfe) (hcontinuous e' he' hfe')
  ahead := by
    intro u hu v hv hfu hfv
    obtain ⟨e, he, rfl⟩ := List.mem_map.mp hfu
    obtain ⟨e', he', rfl⟩ := Incidence.mem_ids.mp hv
    have hlt := h.placed_lt hids hes he (h.mem_of_notMem hes he' hfv)
    rw [Incidence.placeIn_of_mem hids (h.mem_of_mem hes he), Incidence.placeIn_of_mem hids he']
    omega
  kept := by
    intro u hu hfu
    obtain ⟨e, he, rfl⟩ := Incidence.mem_ids.mp hu
    rw [Incidence.placedPosition_of_notMem hids he hfu, Incidence.placeIn_of_mem hids he]

end

end Model.Sections

/-! ### The blocks of the model declared anew -/

/-- The blocks differ at most in the ids and the positions of their entries and in how their slots
are paired. -/
structure Block.SameSources (b c : Block) : Prop where
  kind : b.kind = c.kind
  sources : b.entries.map (·.source) = c.entries.map (·.source)
  slots : b.slots.Perm c.slots
  solution : b.solution = c.solution

theorem Block.Agrees.sameSources {b c : Block} {f : String → String} {q : String → Nat}
    (h : (b.rename f q).Agrees c) : b.SameSources c where
  kind := h.kind
  sources := by
    rw [← h.entries, Block.rename, List.map_map]
    rfl
  slots := h.slots
  solution := h.solution

theorem Block.entries_of_agrees {bs cs : List Block} {f : String → String} {q : String → Nat}
    (h : List.Forall₂ Block.Agrees (bs.map (Block.rename f q)) cs) :
    cs.flatMap (·.entries) = (bs.flatMap (·.entries)).map (Entry.rename f q) := by
  rw [List.flatMap_def, ← Forall₂.map_eq (h.imp fun _ _ hbc => hbc.entries), List.map_map,
    List.map_flatMap, List.flatMap_def]
  rfl

variable {m : Model} {includeInitial : Bool} {p : Plan}

def Plan.continuousEntries (p : Plan) : List Entry :=
  (p.blocks.flatMap (·.entries)).filter fun e => e.origin = .continuous

theorem Plan.continuousSources_eq (p : Plan) :
    p.continuousSources = p.continuousEntries.map (·.source) := rfl

/-- The analysis of the model in which the continuous entries have their new places. -/
theorem Model.Sections.exists_plan {m' : Model} {g : Incidence} {first rest es : List Entry}
    {firstRows restRows : List Row} {a : Assignment} {order : List (List String)}
    {parts : List (List (Entry × Occurrence))} {bs : List Block}
    (h : m.Sections includeInitial g first rest firstRows restRows) (hids : g.ids.Nodup)
    (hperfect : g.IsPerfect (m.slots g) a) (hd : g.Decomposed a order parts bs)
    (hfilter : ((bs.flatMap (·.entries)).filter fun e => e.origin = .continuous) = es)
    (hes : es.Perm first) (hvars : m'.vars = m.vars)
    (hg' : m'.incidence includeInitial = .ok ⟨es.zipIdx.map Entry.placed ++ rest⟩) :
    ∃ p', m'.analyze ⟨includeInitial, none⟩ = .ok p' ∧
      List.Forall₂ Block.SameSources bs p'.blocks ∧
      p'.continuousEntries.map (·.position) = List.range es.length := by
  have hids' := m'.nodup_ids hg'
  have hrenames := h.renames hids hes hids'
  have hfollows := h.follows hids hes (bs.flatMap (·.entries)) (fun e he => hd.mem_entries he)
    hd.ids_entries hfilter
  have hmatching := hperfect.toIsMatching
  have hn := hrenames.nodup_assigned hmatching
  have hslots : m'.slots ⟨es.zipIdx.map Entry.placed ++ rest⟩ = m.slots g := by
    unfold Model.slots
    rw [hvars]
    exact List.flatMap_congr fun v _ => hrenames.slots_eq v
  have hrenamed : (Incidence.mk (es.zipIdx.map Entry.placed ++ rest)).IsPerfect (m.slots g)
      (a.rename _ hn) := hrenames.isPerfect hperfect
  rw [← hslots] at hrenamed
  obtain ⟨hequations, hfound⟩ := m'.isPerfect_matching hg' hrenamed
  have hd' : (Incidence.mk (es.zipIdx.map Entry.placed ++ rest)).Decomposed (a.rename _ hn) _ _ _ :=
    hrenames.decomposed hids hmatching hd (hfollows.sorted hmatching hd.isOrder)
      (hfollows.dispatched hmatching hd.isOrder)
  obtain ⟨cs, hcs, hagrees⟩ := hd'.exists_blocks hids' (m'.placed hg') hrenamed hfound
  obtain ⟨issues, hissues⟩ := Incidence.exists_issues_of_total hequations cs
  refine ⟨⟨m'.name, cs, issues, _, _⟩,
    Model.analyze_eq_ok.mpr ⟨rfl, rfl, hg', rfl, hcs, hissues⟩, ?_, ?_⟩
  · rw [List.forall₂_map_left_iff] at hagrees
    exact hagrees.imp fun _ _ hbc => hbc.sameSources
  · rw [Plan.continuousEntries]
    dsimp only
    rw [Block.entries_of_agrees hagrees, List.filter_map, ← h.positions_placed hids hes, ← hfilter]
    rfl

/-- A model whose matching is total can be given its continuous equations in block order. It is
accepted and falls into the same blocks, and the continuous entries are found in the order in which
they are declared now. -/
theorem Model.blocks_round_trip (m : Model) (includeInitial : Bool) (p : Plan)
    (hnames : ArraysApart m.vars) (h : m.analyze ⟨includeInitial, none⟩ = .ok p)
    (htotal : p.matching.isTotal = true) (hsingle : m.SingleResiduals) :
    ∃ m' p', (m.toDraft.withEquations .continuous p.continuousSources).check = .ok m' ∧
      m'.analyze ⟨includeInitial, none⟩ = .ok p' ∧
      List.Forall₂ Block.SameSources p.blocks p'.blocks ∧
      p'.continuousEntries.map (·.position) = List.range p.continuousSources.length := by
  have hg : m.incidence includeInitial = .ok p.incidence := (Model.analyze_eq_ok.mp h).incidence
  have hids := m.nodup_ids hg
  have hperfect := m.isPerfect_of_isTotal h htotal
  obtain ⟨order, parts, hd⟩ := m.exists_decomposed h
  obtain ⟨first, rest, firstRows, restRows, hsections⟩ := Model.exists_sections hg
  have hes : p.continuousEntries.Perm first := by
    rw [← hsections.filter_eq]
    exact (hd.perm_entries hids hperfect).filter _
  have hsources : ∀ e ∈ p.continuousSources, ∃ l ∈ m.expanded .continuous, l.equation = e := by
    intro e he
    rw [p.continuousSources_eq] at he
    obtain ⟨x, hx, rfl⟩ := List.mem_map.mp he
    exact (hsections.single_first hsingle (hes.subset hx)).1
  have haccepted := Model.elaborate_withEquations hnames hsources
  have hcheck := Draft.check_eq_ok haccepted
  have hvars : (Model.mk _ _ haccepted).vars = m.vars := rfl
  have hg' : (Model.mk _ _ haccepted).incidence includeInitial =
      .ok ⟨p.continuousEntries.zipIdx.map Entry.placed ++ rest⟩ :=
    hsections.incidence_placed hsingle hvars (fun s hs => @Model.sectionsWith_of_ne m _ s hs) hes
      (@Model.sectionsWith_continuous m _)
  obtain ⟨p', hp', hblocks, hpositions⟩ := hsections.exists_plan hids hperfect hd rfl hes hvars hg'
  refine ⟨_, p', hcheck, hp', hblocks, ?_⟩
  rwa [p.continuousSources_eq, List.length_map]

/-- The first equation moves behind the other two, and stays there. -/
theorem coupled_blocks_round_trip : ∃ p m' p', Model.coupled.analyze .standard = .ok p ∧
    (Draft.coupled.withEquations .continuous p.continuousSources).check = .ok m' ∧
    m'.analyze .standard = .ok p' ∧ List.Forall₂ Block.SameSources p.blocks p'.blocks ∧
    p.continuousEntries.map (·.position) = [1, 2, 0] ∧
    p'.continuousEntries.map (·.position) = [0, 1, 2] := by
  have hfacts : (Model.coupled.analyze .standard).map (fun p =>
      (p.matching.isTotal, p.continuousEntries.map (·.position), p.continuousSources.length)) =
      .ok (true, [1, 2, 0], 3) := by cbv
  have hnames : ArraysApart Model.coupled.vars := by
    unfold ArraysApart
    decide
  have hsingle : Model.coupled.SingleResiduals := by
    intro l hl
    have hequation : l.equation ∈ Draft.coupled.equations .continuous := Section.equation_mem hl
    simp only [Draft.coupled, List.mem_cons, List.not_mem_nil, or_false] at hequation
    obtain hl | hl | hl := hequation
    all_goals
      rw [hl]
      exact ⟨_, rfl⟩
  obtain ⟨p, h, hfacts⟩ := map_eq_ok.mp hfacts
  rw [Prod.mk.injEq, Prod.mk.injEq] at hfacts
  obtain ⟨htotal, hpositions, hlength⟩ := hfacts
  obtain ⟨m', p', hm', hp', hblocks, hpositions'⟩ :=
    Model.blocks_round_trip .coupled true p hnames h htotal hsingle
  rw [hlength] at hpositions'
  exact ⟨p, m', p', h, hm', hp', hblocks, hpositions, hpositions'⟩

end Causality
