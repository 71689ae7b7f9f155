import Causality.Proofs.Plan.Stages

/-!
# What the verdict says

The matching and the blocks of a plan pass the checks on duplicates and on the blocks, so that the
errors of a plan are those of its matching. There are none exactly if the matching is total, and
then the blocks hold all entries and all slots.
-/

namespace Causality

variable {a : Assignment} {x : Matching} {g : Incidence}
  {order : List (List String)} {parts : List (List (Entry × Occurrence))} {bs : List Block}
  {i : Issue} {is : List Issue}

/-! ### Blocks -/

namespace Incidence

theorem IsMember.slotOf?_eq {id : String} {p : Entry × Occurrence} (h : g.IsMember a id p) :
    a.slotOf? p.1.id = some p.2 := by
  rw [h.id_eq]
  exact Assignment.slotOf?_iff.mpr h.assigned

namespace Decomposed

theorem expectedSlots_eq (h : g.Decomposed a order parts bs) {b : Block} (hb : b ∈ bs) :
    b.expectedSlots a = b.slots.map some := by
  obtain ⟨part, hpart, hofMembers⟩ := Forall₂.exists_left h.blocks hb
  obtain ⟨_, _, rfl⟩ := Block.ofMembers_eq_ok.mp hofMembers
  obtain ⟨ids, _, hids⟩ := Forall₂.exists_left h.members hpart
  simp only [Block.expectedSlots, Block.ids, List.map_map]
  refine List.map_congr_left fun p hp => ?_
  obtain ⟨id, _, hmember⟩ := Forall₂.exists_left hids hp
  exact hmember.slotOf?_eq

theorem blockIssues_eq_nil (h : g.Decomposed a order parts bs) : blockIssues a bs = [] := by
  have hperm := h.perm_ids
  have hassigned : ∀ b ∈ bs, ∀ id ∈ b.ids, id ∈ a.ids :=
    fun b hb id hid => hperm.subset (List.mem_flatMap.mpr ⟨b, hb, hid⟩)
  refine Causality.blockIssues_eq_nil.mpr ⟨fun b hb => ?_, fun id hid => ?_, hassigned⟩
  · rw [← Block.perm_expectedSlots (hassigned b hb)]
    exact .of_eq (h.expectedSlots_eq hb)
  · rw [hperm.count_eq]
    exact List.count_eq_one_of_mem a.nodup_ids hid

end Decomposed

end Incidence

/-! ### The matching -/

namespace Incidence

/-- A total matching has as many slots as equations, so that there is nothing to count. -/
theorem matchingIssues_eq_nil_iff_isTotal (hx : g.Admits x) (h : g.matchingIssues x = .ok is) :
    is = [] ↔ x.isTotal = true := by
  rw [matchingIssues_eq_nil h, Matching.isTotal_iff]
  refine and_iff_right_of_imp fun ⟨hequations, hslots, _⟩ => ?_
  have hsize := hx.size_add
  rw [hequations, hslots, ids, List.length_map, List.length_nil, Nat.add_zero] at hsize
  exact hsize.1.symm.trans hsize.2

/-- What remains of the checks: errors of the matching, and loops. -/
theorem Decomposed.issues_eq_ok (h : g.Decomposed a order parts bs) (hx : x.assignment = a)
    (hslots : x.slots.Nodup) (hn : a.slots.Nodup) : g.issues x bs = .ok is ↔
    ∃ ms, g.matchingIssues x = .ok ms ∧
      is = ms ++ bs.zipIdx.flatMap fun place => place.1.loopIssues place.2 := by
  subst hx
  simp only [issues, bind_eq_ok, pure_eq_ok, listedTwice_eq_nil.mpr hslots,
    assignedTwice_eq_nil.mpr hn, h.blockIssues_eq_nil, List.append_nil]
  exact exists_congr fun ms => and_congr_right fun _ => eq_comm

end Incidence

/-! ### Plans -/

variable {m : Model} {settings : Settings} {p : Plan}

theorem Plan.isWellPosed_iff : p.isWellPosed = true ↔ ∀ i ∈ p.issues, i.severity ≠ .error := by
  simp [isWellPosed, errors, withSeverity, List.filter_eq_nil_iff]

/-- The issues of a plan are errors of its matching and reports of loops. -/
theorem Model.issues_of_analyze (h : m.analyze settings = .ok p) :
    ∃ ms, p.incidence.matchingIssues p.matching = .ok ms ∧
      (∀ i ∈ ms, i ∈ p.issues ∧ i.OfMatching) ∧
      ∀ i ∈ p.issues, i ∈ ms ∨ i.severity = .info ∧ i.category = .algebraicLoop := by
  have hissues := (Model.analyze_eq_ok.mp h).issues
  obtain ⟨order, parts, hd⟩ := m.exists_decomposed h
  have hslots : p.matching.slots.Nodup := m.slots_of_analyze h ▸ m.nodup_slots p.incidence
  obtain ⟨ms, hms, heq⟩ := (hd.issues_eq_ok rfl hslots (m.admits h).isMatching.nodup).mp hissues
  refine ⟨ms, hms, fun i hi => ⟨?_, Incidence.ofMatching_matchingIssues hms hi⟩, fun i hi => ?_⟩
  · rw [heq]
    exact List.mem_append_left _ hi
  · rw [heq, List.mem_append] at hi
    refine hi.imp_right fun hloop => ?_
    obtain ⟨⟨b, k⟩, _, hmem⟩ := List.mem_flatMap.mp hloop
    exact Block.eq_of_mem_loopIssues hmem

theorem Model.isWellPosed_iff_isTotal (h : m.analyze settings = .ok p) :
    p.isWellPosed = true ↔ p.matching.isTotal = true := by
  obtain ⟨ms, hms, herrors, hissues⟩ := m.issues_of_analyze h
  rw [← Incidence.matchingIssues_eq_nil_iff_isTotal (m.admits h) hms, Plan.isWellPosed_iff]
  constructor
  · intro hnone
    refine List.eq_nil_iff_forall_not_mem.mpr fun i hi => ?_
    exact hnone i (herrors i hi).1 (herrors i hi).2.severity
  · rintro rfl i hi
    rcases hissues i hi with hmem | ⟨hinfo, _⟩
    · cases hmem
    · simp [hinfo]

theorem Model.isTotal_matching {g : Incidence} {includeInitial : Bool}
    (h : m.incidence includeInitial = .ok g) (ha : g.IsPerfect (m.slots g) a) :
    (m.matching g none).isTotal = true := by
  obtain ⟨hequations, hperfect⟩ := m.isPerfect_matching h ha
  have hsize := (m.matching_admits h none).size_add.2
  have hperfectSize := (hperfect.size_eq (m.nodup_ids h) (m.nodup_slots g)).2
  rw [m.slots_matching] at hsize
  refine Matching.isTotal_iff.mpr ⟨hequations, List.length_eq_zero_iff.mp (by omega), ?_⟩
  rw [m.matching_eq_along]
  exact Bipartite.pairAlong_none_snd _ _

/-- A plan is well posed if its matching is total, and then its blocks hold all entries and all
slots. Duplicates and wrong blocks are never reported. If the search is not bounded, the plan is
well posed if any perfect matching of the entries with the slots exists. -/
theorem Model.verdict_is_totality (m : Model) (settings : Settings) (p : Plan)
    (h : m.analyze settings = .ok p) :
    (p.isWellPosed = true ↔ p.matching.isTotal = true) ∧
      (p.isWellPosed = true →
        (p.blocks.flatMap (·.entries)).Perm p.incidence.entries ∧
          (p.blocks.flatMap (·.slots)).Perm (m.slots p.incidence)) ∧
      (∀ i ∈ p.issues, i.category ≠ .duplicateAssignment ∧ i.category ≠ .blockMismatch) ∧
      (settings.maxSteps = none →
        (p.isWellPosed = true ↔ ∃ a, p.incidence.IsPerfect (m.slots p.incidence) a)) := by
  obtain ⟨_, _, hg, hx, _⟩ := Model.analyze_eq_ok.mp h
  have htotal := m.isWellPosed_iff_isTotal h
  refine ⟨htotal, fun hposed => ?_, fun i hi => ?_, fun hbound => ?_⟩
  · have hperfect := m.isPerfect_of_isTotal h (htotal.mp hposed)
    obtain ⟨order, parts, hd⟩ := m.exists_decomposed h
    exact ⟨hd.perm_entries (m.nodup_ids hg) hperfect,
      hd.perm_slots.trans (hperfect.perm_slots (m.nodup_slots p.incidence))⟩
  · obtain ⟨ms, _, herrors, hissues⟩ := m.issues_of_analyze h
    rcases hissues i hi with hmem | ⟨_, hloop⟩
    · have hcategory := (herrors i hmem).2.category
      constructor <;> rintro heq <;> simp [heq] at hcategory
    · simp [hloop]
  · rw [htotal]
    constructor
    · exact fun hx => ⟨_, m.isPerfect_of_isTotal h hx⟩
    · rintro ⟨a, ha⟩
      rw [hx, hbound]
      exact m.isTotal_matching hg ha

theorem verdict_coupled_is_totality : ∃ p, Model.coupled.analyze .standard = .ok p ∧
    p.matching.isTotal = true ∧ (p.blocks.flatMap (·.entries)).Perm p.incidence.entries ∧
    ∃ a, p.incidence.IsPerfect (Model.coupled.slots p.incidence) a := by
  have hposed : (Model.coupled.analyze .standard).map (·.isWellPosed) = .ok true := by cbv
  obtain ⟨p, hp, hposed⟩ := map_eq_ok.mp hposed
  obtain ⟨htotal, hblocks, _, hperfect⟩ :=
    Model.verdict_is_totality .coupled .standard p hp
  exact ⟨p, hp, htotal.mp hposed, (hblocks hposed).1, (hperfect rfl).mp hposed⟩

end Causality
