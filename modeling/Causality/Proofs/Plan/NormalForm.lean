import Causality.Proofs.Block.Renaming
import Causality.Proofs.Matching.Relabelled
import Causality.Proofs.Plan.Verdict

/-!
# Expansion is a normal form

A model can be given its expanded equations as the declared ones. It is accepted, they expand to
themselves, and the analysis comes to the same plan under the ids of the new places.
-/

namespace Causality

def Block.relabel (f : String → String) (b : Block) : Block :=
  { b with entries := b.entries.map (Entry.relabel f) }

/-- Only a surplus equation is told by its id. -/
inductive Issue.Relabels (f : String → String) : Issue → Issue → Prop where
  | same (i : Issue) : Relabels f i i
  | surplus (category : Category) (e : Entry) {i i' : Issue} : surplusIssue category e = .ok i →
    surplusIssue category (e.relabel f) = .ok i' → Relabels f i i'

theorem Issue.Relabels.severity {f : String → String} {i i' : Issue} (h : i.Relabels f i') :
    i'.severity = i.severity := by
  cases h with
  | same => rfl
  | surplus category e hi hi' =>
    obtain ⟨_, rfl⟩ := surplusIssue_eq_ok.mp hi
    obtain ⟨_, rfl⟩ := surplusIssue_eq_ok.mp hi'
    rfl

structure Plan.Relabels (f : String → String) (p p' : Plan) : Prop where
  injective : ∀ u ∈ p.incidence.ids, ∀ v ∈ p.incidence.ids, f u = f v → u = v
  modelName : p'.modelName = p.modelName
  entries : p'.incidence.entries = p.incidence.entries.map (Entry.relabel f)
  matching : p.matching.Relabels f p'.matching
  blocks : p'.blocks = p.blocks.map (Block.relabel f)
  issues : List.Forall₂ (Issue.Relabels f) p.issues p'.issues

theorem Plan.Relabels.isWellPosed {f : String → String} {p p' : Plan} (h : p.Relabels f p') :
    p'.isWellPosed = p.isWellPosed := by
  rw [Bool.eq_iff_iff, Plan.isWellPosed_iff, Plan.isWellPosed_iff]
  constructor
  · intro hposed i hi
    obtain ⟨i', hi', hii'⟩ := Forall₂.exists_right h.issues hi
    rw [← hii'.severity]
    exact hposed i' hi'
  · intro hposed i' hi'
    obtain ⟨i, hi, hii'⟩ := Forall₂.exists_left h.issues hi'
    rw [hii'.severity]
    exact hposed i hi

/-! ### Blocks -/

namespace Incidence

variable {g : Incidence} {f : String → String} {a : Assignment} {slots : List Occurrence}
  {order : List (List String)} {parts : List (List (Entry × Occurrence))} {bs : List Block}
  {e : Entry} {u : String} {x x' : Matching} {is : List Issue}

theorem rename_placeOf (hids : g.ids.Nodup) (he : e ∈ g.entries) :
    e.rename f g.placeOf = e.relabel f := by
  rw [Entry.rename, placeOf_of_mem hids he]
  rfl

theorem renames_relabel (hids : g.ids.Nodup) (hids' : (g.relabel f).ids.Nodup) :
    g.Renames (g.relabel f) f g.placeOf where
  perm := by
    rw [relabel, List.map_congr_left fun e he => rename_placeOf hids he]
  inj := by
    rw [ids_relabel] at hids'
    intro u hu v hv
    exact List.inj_on_of_nodup_map hids' hu hv

theorem placed_relabel (hplaced : g.Placed) : (g.relabel f).Placed := by
  rw [Placed, relabel, List.map_map]
  exact hplaced

theorem Decomposed.blocks_relabel (hids : g.ids.Nodup) (hids' : (g.relabel f).ids.Nodup)
    (ha : g.IsMatching slots a) (h : g.Decomposed a order parts bs) (hn : (a.ids.map f).Nodup) :
    ∃ order' parts', (g.relabel f).Decomposed (a.rename f hn) order' parts'
      (bs.map (Block.relabel f)) := by
  have hplaces : ∀ c ∈ order, ∀ u ∈ c, (g.placeOf u : Int) = placeIn g.position? u :=
    fun c hc u hu => natCast_placeOf hids (ha.mem_ids (h.isOrder.mem_ids hc hu))
  have hblocks : bs.map (Block.rename f g.placeOf) = bs.map (Block.relabel f) := by
    apply List.map_congr_left
    intro b hb
    unfold Block.rename Block.relabel
    rw [List.map_congr_left]
    intro e he
    exact rename_placeOf hids (h.mem_entries (List.mem_flatMap.mpr ⟨b, hb, he⟩))
  rw [← hblocks]
  refine ⟨_, _, (renames_relabel hids hids').decomposed hids ha h ?_ ?_⟩
  · intro c hc
    apply (h.isOrder.sorted c hc).imp_of_mem
    intro u v hu hv huv
    have hplaceU := hplaces c hc u hu
    have hplaceV := hplaces c hc v hv
    omega
  · apply h.isOrder.dispatched.congr (fun _ _ _ _ _ => Iff.rfl)
    intro c hc
    cases c with
    | nil => exact absurd hc h.isOrder.nonempty
    | cons u rest => exact (hplaces _ hc u List.mem_cons_self).symm

/-! ### Issues -/

theorem countIssues_relabel (h : x.Relabels f x') (n m : Nat) :
    countIssues n m x' = countIssues n m x := by
  simp [countIssues, h.unmatchedEquations, h.unmatchedSlots, Assignment.size, h.pairs]

/-- The equation is the same, so it can be shown under another id, too. -/
theorem exists_surplusIssue_relabel (f : String → String) {category : Category} {i : Issue}
    (hi : surplusIssue category e = .ok i) :
    ∃ i', surplusIssue category (e.relabel f) = .ok i' ∧ i.Relabels f i' := by
  have hi' : surplusIssue category (e.relabel f) = .ok _ :=
    surplusIssue_eq_ok.mpr ⟨(surplusIssue_eq_ok.mp hi).1, rfl⟩
  exact ⟨_, hi', .surplus category e hi hi'⟩

theorem matchingIssues_relabel (hids : g.ids.Nodup) (hids' : (g.relabel f).ids.Nodup)
    (hx : x.Relabels f x') (h : g.matchingIssues x = .ok is) :
    ∃ is', (g.relabel f).matchingIssues x' = .ok is' ∧
      List.Forall₂ (Issue.Relabels f) is is' := by
  obtain ⟨surplus, hsurplus, rfl⟩ := matchingIssues_eq_ok.mp h
  have hsame : ∀ is : List Issue, List.Forall₂ (Issue.Relabels f) is is :=
    fun is => List.forall₂_same.mpr fun i _ => .same i
  have hcategory : (g.relabel f).surplusCategory x' = g.surplusCategory x := by
    unfold surplusCategory
    rw [length_relabel, hx.slots]
  have hunmatched : List.Forall₂ (fun id id' => id' = f id) x.unmatchedEquations
      x'.unmatchedEquations := by
    rw [hx.unmatchedEquations, List.forall₂_map_right_iff, List.forall₂_same]
    exact fun _ _ => rfl
  obtain ⟨surplus', hsurplus', hrelabels⟩ :
      ∃ surplus', List.Forall₂ (fun id i => ∃ e, (g.relabel f).entry id = .ok e ∧
        surplusIssue ((g.relabel f).surplusCategory x') e = .ok i) x'.unmatchedEquations surplus' ∧
        List.Forall₂ (Issue.Relabels f) surplus surplus' := by
    apply Forall₂.exists_results hunmatched hsurplus
    rintro id id' i _ rfl ⟨e, he, hi⟩
    obtain ⟨hmem, rfl⟩ := (entry_eq_ok hids).mp he
    obtain ⟨i', hi', hrelabels⟩ := exists_surplusIssue_relabel f hi
    rw [hcategory]
    exact ⟨i', ⟨e.relabel f, (entry_eq_ok hids').mpr ⟨List.mem_map_of_mem hmem, rfl⟩, hi'⟩,
      hrelabels⟩
  refine ⟨_, matchingIssues_eq_ok.mpr ⟨surplus', hsurplus', rfl⟩, ?_⟩
  · have haborts : abortIssues x' = abortIssues x := by
      unfold abortIssues
      rw [hx.aborted]
    rw [length_relabel, hx.slots, hx.unmatchedSlots, countIssues_relabel hx, haborts]
    exact Forall₂.append (Forall₂.append (Forall₂.append (hsame _) hrelabels) (hsame _)) (hsame _)

theorem loopIssues_relabel (bs : List Block) :
    ((bs.map (Block.relabel f)).zipIdx.flatMap fun place => place.1.loopIssues place.2) =
      bs.zipIdx.flatMap fun place => place.1.loopIssues place.2 := by
  rw [List.zipIdx_map, List.flatMap_map]
  apply List.flatMap_congr
  intro place _
  have hsize : (place.1.relabel f).size = place.1.size := List.length_map _
  unfold Block.loopIssues
  dsimp only [Prod.map]
  rw [hsize]
  rfl

end Incidence

/-! ### Plans -/

variable {m m' : Model} {settings : Settings} {p : Plan} {f : String → String}

theorem Model.slots_relabel (hvars : m'.vars = m.vars) {g : Incidence} (hids : g.ids.Nodup)
    (hids' : (g.relabel f).ids.Nodup) : m'.slots (g.relabel f) = m.slots g := by
  unfold Model.slots
  rw [hvars]
  apply List.flatMap_congr
  exact fun v _ => (Incidence.renames_relabel hids hids').slots_eq v

theorem Model.matching_relabel (hvars : m'.vars = m.vars) {g : Incidence} (hids : g.ids.Nodup)
    (hids' : (g.relabel f).ids.Nodup) (maxSteps : Option Int) :
    (m.matching g maxSteps).Relabels f (m'.matching (g.relabel f) maxSteps) :=
  Incidence.matching_alike Incidence.forall₂_relabel (Model.slots_relabel hvars hids hids') hids
    hids' maxSteps

/-- The plan of a model does not depend on the labels of the expanded equations. -/
theorem Model.exists_relabelled_plan (m' : Model) (hname : m'.name = m.name)
    (hvars : m'.vars = m.vars)
    (he : ∀ s, (m.expanded s).map (·.equation) = (m'.expanded s).map (·.equation))
    (h : m.analyze settings = .ok p) :
    ∃ f p', m'.analyze settings = .ok p' ∧ p.Relabels f p' := by
  obtain ⟨hwritable, hmodel, hg, hx, _, hissues⟩ := Model.analyze_eq_ok.mp h
  obtain ⟨f, hg'⟩ := Model.exists_relabelled hvars he hg
  have hids := m.nodup_ids hg
  have hids' : (p.incidence.relabel f).ids.Nodup := m'.nodup_ids hg'
  have hrenames := Incidence.renames_relabel hids hids'
  have hmatching := (m.admits h).isMatching
  have hn := hrenames.nodup_assigned hmatching
  have hrelabels := Model.matching_relabel hvars hids hids' settings.maxSteps
  rw [← hx] at hrelabels
  have hassignment : (m'.matching (p.incidence.relabel f) settings.maxSteps).assignment =
      p.matching.assignment.rename f hn := Assignment.eq_of_pairs hrelabels.pairs
  obtain ⟨order, parts, hd⟩ := m.exists_decomposed h
  obtain ⟨order', parts', hd'⟩ := hd.blocks_relabel hids hids' hmatching hn
  have hrenamed : (p.incidence.relabel f).IsMatching p.matching.slots
      (p.matching.assignment.rename f hn) := hrenames.isMatching hmatching
  have hblocks := hd'.blocks_eq hids' (Incidence.placed_relabel (m.placed hg)) hrenamed
  have hslots : p.matching.slots.Nodup := m.slots_of_analyze h ▸ m.nodup_slots p.incidence
  obtain ⟨ms, hms, his⟩ := (hd.issues_eq_ok rfl hslots hmatching.nodup).mp hissues
  obtain ⟨ms', hms', hsame⟩ := Incidence.matchingIssues_relabel hids hids' hrelabels hms
  have hissues' := (hd'.issues_eq_ok hassignment (hrelabels.slots ▸ hslots) hrenamed.nodup).mpr
    ⟨ms', hms', rfl⟩
  rw [← hassignment] at hblocks
  refine ⟨f, ⟨m'.name, _, _, _, _⟩,
    Model.analyze_eq_ok.mpr ⟨hwritable, rfl, hg', rfl, hblocks, hissues'⟩,
    ⟨hrenames.inj, hname.trans hmodel.symm, rfl, hrelabels, rfl, ?_⟩⟩
  rw [his, Incidence.loopIssues_relabel]
  exact Forall₂.append hsame (List.forall₂_same.mpr fun i _ => .same i)

/-- The expanded equations of a model are accepted as the declared ones. They expand to themselves,
and the analysis comes to the same plan under other ids, with the same verdict. -/
theorem Model.normalForm_is_fixed (m : Model) (hnames : ArraysApart m.vars) :
    ∃ n, m.normalForm.check = .ok n ∧
      (∀ s, (n.expanded s).map (·.equation) = (m.expanded s).map (·.equation)) ∧
      ∀ settings p, m.analyze settings = .ok p →
        ∃ f p', n.analyze settings = .ok p' ∧ p.Relabels f p' ∧
          p'.isWellPosed = p.isWellPosed := by
  have haccepted := Model.elaborate_normalForm hnames
  have hexpanded : ∀ s, (s.numbered (m.normalForm.equations s)).map (·.equation) =
      (m.expanded s).map (·.equation) := fun s => s.map_equation_numbered (m.normalForm.equations s)
  refine ⟨⟨m.normalForm, _, haccepted⟩, Draft.check_eq_ok haccepted, hexpanded, ?_⟩
  intro settings p h
  obtain ⟨f, p', hp', hrelabels⟩ := Model.exists_relabelled_plan (m := m)
    ⟨m.normalForm, _, haccepted⟩ rfl rfl (fun s => (hexpanded s).symm) h
  exact ⟨f, p', hp', hrelabels, hrelabels.isWellPosed⟩

/-- The equation `x * x = y` for both elements of `x`, and `y * y = 2` in a loop of one round. -/
def Draft.squares : Draft where
  name := "squares"
  vars := [.pair "x" x_ne_empty, .unknown "y" y_ne_empty]
  equations
    | .continuous => [.simple (.binary .mul (.var "x") (.var "x")) (.var "y"),
        .loop "i" 1 1 1 [.simple (.binary .mul (.var "y") (.var "y")) (.lit (.int 2))]]
    | _ => []
  description := ""

def Draft.squaresExpanded : Section → List Labelled
  | .continuous =>
    [⟨"eq[0][1]", .simple (.binary .mul (.var "x[1]") (.var "x[1]")) (.var "y")⟩,
      ⟨"eq[0][2]", .simple (.binary .mul (.var "x[2]") (.var "x[2]")) (.var "y")⟩,
      ⟨"eq[1][i=1].0", .simple (.binary .mul (.var "y") (.var "y")) (.lit (.int 2))⟩]
  | _ => []

theorem Draft.elaborate_squares : Draft.squares.elaborate = .ok Draft.squaresExpanded := by
  apply Draft.elaborate_of_sections
  · rfl
  · cbv
  · intro s
    cases s <;> cbv
  · intro s
    cases s <;> cbv

def Model.squares : Model where
  toDraft := .squares
  expanded := Draft.squaresExpanded
  accepted := Draft.elaborate_squares

/-- Each element gets an equation of its own. -/
theorem squares_normalForm_is_fixed : ∃ n p f p', Model.squares.normalForm.check = .ok n ∧
    Model.squares.analyze .standard = .ok p ∧ n.analyze .standard = .ok p' ∧
    p.Relabels f p' ∧ p'.isWellPosed = true ∧
    p.incidence.ids = ["eq[0][1]", "eq[0][2]", "eq[1][i=1].0"] ∧
    (n.expanded .continuous).length = 3 := by
  have hfacts : (Model.squares.analyze .standard).map (fun p =>
      (p.isWellPosed, p.incidence.ids)) =
      .ok (true, ["eq[0][1]", "eq[0][2]", "eq[1][i=1].0"]) := by cbv
  have hnames : ArraysApart Model.squares.vars := by
    unfold ArraysApart
    decide
  obtain ⟨p, h, hfacts⟩ := map_eq_ok.mp hfacts
  rw [Prod.mk.injEq] at hfacts
  obtain ⟨hposed, hids⟩ := hfacts
  obtain ⟨n, hn, hexpanded, hplan⟩ := Model.normalForm_is_fixed .squares hnames
  obtain ⟨f, p', hp', hrelabels, hverdict⟩ := hplan .standard p h
  have hlength := congrArg List.length (hexpanded .continuous)
  rw [List.length_map, List.length_map] at hlength
  exact ⟨n, p, f, p', hn, h, hp', hrelabels, hverdict.trans hposed, hids, hlength⟩

end Causality
