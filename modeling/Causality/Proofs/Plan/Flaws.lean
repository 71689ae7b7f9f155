import Causality.Proofs.Block.Dependencies
import Causality.Proofs.Failure
import Causality.Verdict

/-!
# Flaws of a decomposition

What the checks of a decomposition look for, whatever matching and blocks they are given. A check
finds nothing exactly if the flaw it looks for is absent, so that there is an error exactly if there
is a flaw. Without one the blocks pair the assigned equations with different slots. The checks fail
only where a surplus equation is too long to be shown.
-/

namespace Causality

variable {slots : List Occurrence} {a : Assignment} {x : Matching} {g : Incidence}
  {bs : List Block} {b : Block} {id : String} {slot : Occurrence} {i : Issue} {is : List Issue}

/-! ### Duplicates -/

theorem listedTwice_eq_nil : listedTwice slots = [] ↔ slots.Nodup := by
  rw [listedTwice, List.filterMap_eq_nil_iff, List.nodup_iff_count_le_one]
  constructor
  · intro h slot
    by_contra hcount
    have hmem : slot ∈ slots := List.count_pos_iff.mp (by omega)
    have hnone := h slot (List.mem_eraseDups.mpr hmem)
    rw [if_pos (Nat.lt_of_not_le hcount)] at hnone
    cases hnone
  · intro h slot _
    exact if_neg (Nat.not_lt.mpr (h slot))

theorem Assignment.length_filter_slot (a : Assignment) (slot : Occurrence) :
    (a.pairs.filter fun p => p.2 = slot).length = a.slots.count slot := by
  rw [slots, List.count_eq_countP, List.countP_map, List.countP_eq_length_filter]
  rfl

theorem assignedTwice_eq_nil : assignedTwice a = [] ↔ a.slots.Nodup := by
  rw [assignedTwice, List.filterMap_eq_nil_iff, List.nodup_iff_count_le_one]
  simp only [List.length_map, a.length_filter_slot]
  constructor
  · intro h slot
    by_contra hcount
    have hmem : slot ∈ a.slots := List.count_pos_iff.mp (by omega)
    have hnone := h slot (List.mem_eraseDups.mpr hmem)
    rw [if_pos (Nat.lt_of_not_le hcount)] at hnone
    cases hnone
  · intro h slot _
    exact if_neg (Nat.not_lt.mpr (h slot))

/-! ### Blocks -/

theorem Assignment.isSome_slotOf? : (a.slotOf? id).isSome ↔ id ∈ a.ids := by
  simp only [Option.isSome_iff_exists, slotOf?_iff, mem_ids]

theorem Assignment.slotOf?_eq_none : a.slotOf? id = none ↔ id ∉ a.ids := by
  rw [← isSome_slotOf?, Option.not_isSome_iff_eq_none]

theorem Block.slotIssues_eq_nil {k : Nat} :
    b.slotIssues a k = [] ↔ (b.ids.map a.slotOf?).Perm (b.slots.map some) := by
  simp [slotIssues, expectedSlots, List.isPerm_iff]

/-- Where all equations of a block are assigned, the slots to expect are the assigned ones. -/
theorem Block.perm_expectedSlots (h : ∀ id ∈ b.ids, id ∈ a.ids) :
    (b.ids.map a.slotOf?).Perm (b.slots.map some) ↔
      b.slots.Perm (b.ids.filterMap a.slotOf?) := by
  have hsome : (b.ids.filterMap a.slotOf?).map some = b.ids.map a.slotOf? := by
    rw [List.map_filterMap_some_eq_filter_map_isSome, List.filter_eq_self, List.forall_mem_map]
    exact fun id hid => Assignment.isSome_slotOf?.mpr (h id hid)
  rw [← hsome, List.map_perm_map_iff (Option.some_injective _), List.perm_comm]

theorem coverageIssues_eq_nil {seen : List String} :
    a.ids.flatMap (coverageIssues seen) = [] ↔ ∀ id ∈ a.ids, seen.count id = 1 := by
  rw [List.flatMap_eq_nil_iff]
  refine forall₂_congr fun id _ => ?_
  simp [coverageIssues]

theorem strayIssues_eq_nil {seen : List String} :
    ((seen.eraseDups.filter fun id => !a.contains id).mergeSort (· ≤ ·)).map strayIssue = [] ↔
      ∀ id ∈ seen, id ∈ a.ids := by
  rw [List.map_eq_nil_iff, ← List.length_eq_zero_iff, List.length_mergeSort,
    List.length_eq_zero_iff, List.filter_eq_nil_iff]
  simp [List.mem_eraseDups, Assignment.contains_iff]

/-- No block is reported exactly if each holds the slots of its equations, and together they hold
the assigned equations once. -/
theorem blockIssues_eq_nil : blockIssues a bs = [] ↔
    (∀ b ∈ bs, b.slots.Perm (b.ids.filterMap a.slotOf?)) ∧
      (∀ id ∈ a.ids, (bs.flatMap (·.ids)).count id = 1) ∧
      ∀ b ∈ bs, ∀ id ∈ b.ids, id ∈ a.ids := by
  have hslots : (bs.zipIdx.flatMap fun place => place.1.slotIssues a place.2) = [] ↔
      ∀ b ∈ bs, (b.ids.map a.slotOf?).Perm (b.slots.map some) := by
    rw [List.flatMap_eq_nil_iff]
    constructor
    · intro h b hb
      rw [← List.zipIdx_map_fst 0 bs] at hb
      obtain ⟨place, hplace, rfl⟩ := List.mem_map.mp hb
      exact Block.slotIssues_eq_nil.mp (h place hplace)
    · intro h place hplace
      exact Block.slotIssues_eq_nil.mpr (h _ (List.fst_mem_of_mem_zipIdx hplace))
  have hassigned : (∀ id ∈ bs.flatMap (·.ids), id ∈ a.ids) ↔
      ∀ b ∈ bs, ∀ id ∈ b.ids, id ∈ a.ids := by
    simp only [List.mem_flatMap, forall_exists_index, and_imp]
    exact ⟨fun h b hb id hid => h id b hb hid, fun h id b hb hid => h b hb id hid⟩
  rw [blockIssues]
  simp only [List.append_eq_nil_iff, hslots, coverageIssues_eq_nil, strayIssues_eq_nil, hassigned,
    and_assoc]
  refine and_congr_left fun h => ?_
  exact forall₂_congr fun b hb => Block.perm_expectedSlots (h.2 b hb)

/-! ### The matching -/

theorem abortIssues_eq_nil : abortIssues x = [] ↔ x.aborted = false := by
  unfold abortIssues
  split_ifs with h <;> simp [h]

theorem countIssues_eq_nil {n m : Nat} : countIssues n m x = [] ↔
    n = m ∧ x.unmatchedEquations = [] ∧ x.unmatchedSlots = [] := by
  unfold countIssues
  dsimp only
  split_ifs with hless hmore hmatched
  · simp [hless.ne']
  · simp [hmore.ne]
  · obtain rfl : n = m := by omega
    simpa using hmatched
  · simpa using fun _ => by simpa using hmatched

structure Issue.OfMatching (i : Issue) : Prop where
  severity : i.severity = .error
  category : i.category ∈ [Category.overDetermined, .underDetermined, .structurallySingular,
    .incompleteSearch]

theorem ofMatching_countIssues {n m : Nat} (hi : i ∈ countIssues n m x) : i.OfMatching := by
  unfold countIssues at hi
  split_ifs at hi <;> simp only [List.mem_singleton, List.not_mem_nil] at hi <;> subst hi <;>
    exact ⟨rfl, by simp [Issue.error]⟩

theorem ofMatching_abortIssues (hi : i ∈ abortIssues x) : i.OfMatching := by
  unfold abortIssues at hi
  split_ifs at hi
  · rw [List.mem_singleton] at hi
    exact hi ▸ ⟨rfl, by simp [Issue.error]⟩
  · cases hi

theorem surplusIssue_eq_ok {category : Category} {e : Entry} :
    surplusIssue category e = .ok i ↔ e.isWritable = true ∧
      i = .error category ("Surplus equation " ++ e.id ++ ": " ++ e.text) (some e.id) := by
  rw [surplusIssue, whenWritable_eq_ok, @eq_comm _ i]

namespace Incidence

def surplusCategory (g : Incidence) (x : Matching) : Category :=
  if x.slots.length < g.entries.length then .overDetermined else .structurallySingular

theorem matchingIssues_eq_ok : g.matchingIssues x = .ok is ↔ ∃ surplus,
    List.Forall₂ (fun id i => ∃ e, g.entry id = .ok e ∧
      surplusIssue (g.surplusCategory x) e = .ok i) x.unmatchedEquations surplus ∧
      is = countIssues g.entries.length x.slots.length x ++ surplus ++
        x.unmatchedSlots.map
          (missingIssue (if g.entries.length < x.slots.length then .underDetermined
            else .structurallySingular)) ++
        abortIssues x := by
  simp only [matchingIssues, surplusCategory, bind_eq_ok, pure_eq_ok, mapM_eq_ok]
  exact exists_congr fun surplus => and_congr_right fun _ => eq_comm

theorem ofMatching_matchingIssues (h : g.matchingIssues x = .ok is) (hi : i ∈ is) :
    i.OfMatching := by
  obtain ⟨surplus, hsurplus, rfl⟩ := matchingIssues_eq_ok.mp h
  simp only [List.mem_append, List.mem_map] at hi
  obtain ((hi | hi) | ⟨slot, _, rfl⟩) | hi := hi
  · exact ofMatching_countIssues hi
  · obtain ⟨id, _, e, _, hissue⟩ := Forall₂.exists_left hsurplus hi
    obtain ⟨_, rfl⟩ := surplusIssue_eq_ok.mp hissue
    exact ⟨rfl, by simp only [surplusCategory, Issue.error]; split_ifs <;> simp⟩
  · exact ⟨rfl, by simp only [missingIssue, Issue.error]; split_ifs <;> simp⟩
  · exact ofMatching_abortIssues hi

theorem matchingIssues_eq_nil (h : g.matchingIssues x = .ok is) : is = [] ↔
    g.entries.length = x.slots.length ∧ x.unmatchedEquations = [] ∧ x.unmatchedSlots = [] ∧
      x.aborted = false := by
  obtain ⟨surplus, hsurplus, rfl⟩ := matchingIssues_eq_ok.mp h
  have hequations : surplus = [] ↔ x.unmatchedEquations = [] := by
    rw [← List.length_eq_zero_iff, ← hsurplus.length_eq, List.length_eq_zero_iff]
  simp only [List.append_eq_nil_iff, List.map_eq_nil_iff, countIssues_eq_nil, abortIssues_eq_nil,
    hequations]
  tauto

theorem exists_entry (h : id ∈ g.ids) : ∃ e, g.entry id = .ok e := by
  obtain ⟨e, he, rfl⟩ := List.mem_map.mp h
  have hsome : (g.entry? e.id).isSome := List.find?_isSome.mpr ⟨e, he, by simp⟩
  obtain ⟨e', he'⟩ := Option.isSome_iff_exists.mp hsome
  exact ⟨e', by rw [entry, he']⟩

/-- The surplus equations, which the checks show, can be written. -/
def SurplusWritable (g : Incidence) (x : Matching) : Prop :=
  ∀ id ∈ x.unmatchedEquations, ∀ e, g.entry id = .ok e → e.isWritable = true

/-- If the checks come to an end, they have shown every surplus equation. -/
theorem surplusWritable_of_issues (h : g.issues x bs = .ok is) : g.SurplusWritable x := by
  intro id hid e he
  simp only [issues, bind_eq_ok] at h
  obtain ⟨ms, hms, _⟩ := h
  obtain ⟨surplus, hsurplus, _⟩ := matchingIssues_eq_ok.mp hms
  obtain ⟨i, _, e', he', hissue⟩ := Forall₂.exists_right hsurplus hid
  obtain rfl := Except.ok.inj (he.symm.trans he')
  exact (surplusIssue_eq_ok.mp hissue).1

/-- The checks fail where they cannot show a surplus equation, and nowhere else. -/
theorem issues_fail (h : ∀ id ∈ x.unmatchedEquations, id ∈ g.ids) (bs : List Block) :
    FailsOnly (fun fault => fault = .unwritableInteger ∧ ¬ g.SurplusWritable x)
      (g.issues x bs) := by
  unfold issues
  apply FailsOnly.bind
  · unfold matchingIssues
    apply FailsOnly.bind
    · apply FailsOnly.mapM
      intro id hid
      obtain ⟨e, he⟩ := exists_entry (h id hid)
      rw [he]
      apply FailsOnly.ok_bind
      constructor
      intro fault hfault
      obtain ⟨hlong, rfl⟩ := whenWritable_eq_error.mp hfault
      refine ⟨rfl, fun hwritable => ?_⟩
      rw [hwritable id hid e he] at hlong
      cases hlong
    · exact fun _ _ => .pure _
  · exact fun _ _ => .pure _

/-- Surplus equations are shown, so the checks come to an end if they are known and can be
written. -/
theorem exists_issues (h : ∀ id ∈ x.unmatchedEquations, id ∈ g.ids)
    (hwritable : g.SurplusWritable x) (bs : List Block) : ∃ is, g.issues x bs = .ok is := by
  obtain hissues | ⟨_, _, _, hlong⟩ := (issues_fail h bs).succeeds_or
  · exact hissues
  · exact absurd hwritable hlong

theorem exists_issues_of_total (h : x.unmatchedEquations = []) (bs : List Block) :
    ∃ is, g.issues x bs = .ok is := by
  have hnone : ∀ id, id ∉ x.unmatchedEquations := by simp [h]
  exact exists_issues (fun id hid => absurd hid (hnone id))
    (fun id hid => absurd hid (hnone id)) bs

end Incidence

/-! ### Errors -/

theorem severity_of_mem_listedTwice (hi : i ∈ listedTwice slots) : i.severity = .error := by
  obtain ⟨slot, _, hslot⟩ := List.mem_filterMap.mp hi
  obtain ⟨_, hissue⟩ := Option.ite_none_right_eq_some.mp hslot
  exact Option.some.inj hissue ▸ rfl

theorem severity_of_mem_assignedTwice (hi : i ∈ assignedTwice a) : i.severity = .error := by
  obtain ⟨slot, _, hslot⟩ := List.mem_filterMap.mp hi
  obtain ⟨_, hissue⟩ := Option.ite_none_right_eq_some.mp hslot
  exact Option.some.inj hissue ▸ rfl

theorem Block.severity_of_mem_slotIssues {k : Nat} (hi : i ∈ b.slotIssues a k) :
    i.severity = .error := by
  unfold slotIssues at hi
  dsimp only at hi
  split_ifs at hi
  · cases hi
  · rw [List.mem_singleton.mp hi]
    rfl

theorem severity_of_mem_coverageIssues {seen : List String} (hi : i ∈ coverageIssues seen id) :
    i.severity = .error := by
  unfold coverageIssues at hi
  split_ifs at hi
  · cases hi
  · rw [List.mem_singleton.mp hi]
    rfl

theorem severity_of_mem_blockIssues (hi : i ∈ blockIssues a bs) : i.severity = .error := by
  rw [blockIssues] at hi
  simp only [List.mem_append, List.mem_flatMap, List.mem_map] at hi
  obtain (⟨place, _, hi⟩ | ⟨id, _, hi⟩) | ⟨id, _, rfl⟩ := hi
  · exact Block.severity_of_mem_slotIssues hi
  · exact severity_of_mem_coverageIssues hi
  · rfl

theorem Block.eq_of_mem_loopIssues {k : Nat} (hi : i ∈ b.loopIssues k) :
    i.severity = .info ∧ i.category = .algebraicLoop := by
  unfold loopIssues at hi
  split_ifs at hi
  · rw [List.mem_singleton] at hi
    exact hi ▸ ⟨rfl, rfl⟩
  · cases hi

namespace Incidence

theorem issues_eq_ok : g.issues x bs = .ok is ↔ ∃ ms, g.matchingIssues x = .ok ms ∧
    is = ms ++ listedTwice x.slots ++ assignedTwice x.assignment ++ blockIssues x.assignment bs ++
      bs.zipIdx.flatMap fun place => place.1.loopIssues place.2 := by
  simp only [issues, bind_eq_ok, pure_eq_ok]
  exact exists_congr fun ms => and_congr_right fun _ => eq_comm

/-- Only loops are reported without being errors. -/
theorem noError_iff {ms : List Issue} (h : g.issues x bs = .ok is)
    (hms : g.matchingIssues x = .ok ms) : (∀ i ∈ is, i.severity ≠ .error) ↔
      ms = [] ∧ listedTwice x.slots = [] ∧ assignedTwice x.assignment = [] ∧
        blockIssues x.assignment bs = [] := by
  obtain ⟨ms', hms', rfl⟩ := issues_eq_ok.mp h
  obtain rfl := Except.ok.inj (hms.symm.trans hms')
  have hnil : ∀ {part : List Issue}, (∀ i ∈ part, i.severity = .error) →
      ((∀ i ∈ part, i.severity ≠ .error) ↔ part = []) := by
    intro part hpart
    rw [List.eq_nil_iff_forall_not_mem]
    exact forall_congr' fun i =>
      ⟨fun hne hi => hne hi (hpart i hi), fun hnone hi => absurd hi hnone⟩
  have hloops : ∀ i ∈ bs.zipIdx.flatMap fun place => place.1.loopIssues place.2,
      i.severity ≠ .error := by
    intro i hi
    obtain ⟨place, _, hi⟩ := List.mem_flatMap.mp hi
    simp [(Block.eq_of_mem_loopIssues hi).1]
  rw [List.forall_mem_append, and_iff_left hloops]
  simp only [List.forall_mem_append, hnil fun i hi => (ofMatching_matchingIssues hms hi).severity,
    hnil fun i hi => severity_of_mem_listedTwice hi,
    hnil fun i hi => severity_of_mem_assignedTwice hi,
    hnil fun i hi => severity_of_mem_blockIssues hi, and_assoc]

end Incidence

/-! ### Without an error -/

theorem Assignment.filterMap_slotOf? (a : Assignment) : a.ids.filterMap a.slotOf? = a.slots := by
  rw [ids, List.filterMap_map, slots, ← List.filterMap_eq_map]
  exact List.filterMap_congr fun p hp => slotOf?_iff.mpr hp

theorem perm_ids_of_once (honce : ∀ id ∈ a.ids, (bs.flatMap (·.ids)).count id = 1)
    (hassigned : ∀ b ∈ bs, ∀ id ∈ b.ids, id ∈ a.ids) : (bs.flatMap (·.ids)).Perm a.ids := by
  rw [List.perm_iff_count]
  intro id
  by_cases hid : id ∈ a.ids
  · rw [honce id hid, List.count_eq_one_of_mem a.nodup_ids hid]
  · have hstray : id ∉ bs.flatMap (·.ids) := by
      intro hmem
      obtain ⟨b, hb, hmem⟩ := List.mem_flatMap.mp hmem
      exact hid (hassigned b hb id hmem)
    rw [List.count_eq_zero_of_not_mem hid, List.count_eq_zero_of_not_mem hstray]

theorem perm_slots_of_blocks (hblocks : ∀ b ∈ bs, b.slots.Perm (b.ids.filterMap a.slotOf?))
    (hids : (bs.flatMap (·.ids)).Perm a.ids) : (bs.flatMap (·.slots)).Perm a.slots := by
  have hexpected := hids.filterMap a.slotOf?
  rw [a.filterMap_slotOf?, List.filterMap_flatMap] at hexpected
  exact (List.Perm.flatMap_left bs hblocks).trans hexpected

/-- The checks of a decomposition come to an end unless a surplus equation is too long to be shown.
Then they report an error exactly if the graph, the matching and the blocks do not agree: as many
equations as slots, nothing left over, a search that was not stopped, no slot listed or assigned
twice, the slots of each block those of its equations, and each assigned equation in the blocks
once, and no other. Without an error the blocks pair the assigned equations with different slots. -/
theorem Incidence.issues_decide_consistency (g : Incidence) (x : Matching) (bs : List Block)
    (h : ∀ id ∈ x.unmatchedEquations, id ∈ g.ids) :
    ((∃ is, g.issues x bs = .ok is) ↔ g.SurplusWritable x) ∧
      (∀ fault, g.issues x bs = .error fault → fault = .unwritableInteger) ∧
      ∀ is, g.issues x bs = .ok is →
        ((∃ i ∈ is, i.severity = .error) ↔
          g.entries.length ≠ x.slots.length ∨
            x.unmatchedEquations ≠ [] ∨ x.unmatchedSlots ≠ [] ∨ x.aborted = true ∨
            ¬ x.slots.Nodup ∨ ¬ x.assignment.slots.Nodup ∨
            (∃ b ∈ bs, ¬ b.slots.Perm (b.ids.filterMap x.assignment.slotOf?)) ∨
            (∃ id ∈ x.assignment.ids, (bs.flatMap (·.ids)).count id ≠ 1) ∨
            ∃ b ∈ bs, ∃ id ∈ b.ids, x.assignment.slotOf? id = none) ∧
        ((∀ i ∈ is, i.severity ≠ .error) →
          (bs.flatMap (·.ids)).Perm x.assignment.ids ∧
            (bs.flatMap (·.slots)).Perm x.assignment.slots ∧ x.assignment.slots.Nodup ∧
            ∀ b ∈ bs, (b.ids.map x.assignment.slotOf?).Perm (b.slots.map some)) := by
  refine ⟨⟨fun ⟨is, his⟩ => surplusWritable_of_issues his, fun hwritable => ?_⟩,
    fun fault hfault => ((issues_fail h bs).of_error fault hfault).1, fun is his => ?_⟩
  · exact exists_issues h hwritable bs
  obtain ⟨ms, hms, _⟩ := issues_eq_ok.mp his
  have hnone := noError_iff his hms
  rw [matchingIssues_eq_nil hms, listedTwice_eq_nil, assignedTwice_eq_nil,
    blockIssues_eq_nil] at hnone
  refine ⟨?_, fun hfree => ?_⟩
  · have hsome : (∃ i ∈ is, i.severity = .error) ↔ ¬ ∀ i ∈ is, i.severity ≠ .error := by simp
    rw [hsome, hnone]
    simp only [not_and_or, not_forall, exists_prop, ne_eq, Assignment.slotOf?_eq_none,
      Bool.not_eq_false, or_assoc]
  · obtain ⟨_, _, hslots, hblocks, honce, hassigned⟩ := hnone.mp hfree
    have hids := perm_ids_of_once honce hassigned
    refine ⟨hids, perm_slots_of_blocks hblocks hids, hslots, fun b hb => ?_⟩
    exact (Block.perm_expectedSlots (hassigned b hb)).mpr (hblocks b hb)

/-- The equation `x = y` under the given id. -/
def Entry.equality (id : String) (position : Nat) : Entry where
  id := id
  origin := .continuous
  position := position
  source := .simple (.var "x") (.var "y")
  exprs := [.var "x", .var "y"]
  assigned := some "x"
  multiplicity := 1
  references := [⟨"x", .value⟩, ⟨"y", .value⟩]

def Incidence.doubled : Incidence := ⟨[.equality "eq[0]" 0, .equality "eq[1]" 1]⟩

/-- The second equation and `y` are left over. -/
def Matching.halved : Matching where
  slots := [⟨"x", .value⟩, ⟨"y", .value⟩]
  assignment := ⟨[("eq[0]", ⟨"x", .value⟩)], by decide⟩
  unmatchedEquations := ["eq[1]"]
  unmatchedSlots := [⟨"y", .value⟩]
  aborted := false

/-- A block that solves both equations nevertheless. -/
def Block.doubled : Block where
  kind := .loop
  entries := Incidence.doubled.entries
  slots := Matching.halved.slots
  solution := none

theorem doubled_issues_decide : (∀ id ∈ Matching.halved.unmatchedEquations,
      id ∈ Incidence.doubled.ids) ∧
    ∃ is, Incidence.doubled.issues .halved [.doubled] = .ok is ∧
      (∃ i ∈ is, i.severity = .error) ∧
      ∃ id ∈ Block.doubled.ids, Matching.halved.assignment.slotOf? id = none := by
  have hids : ∀ id ∈ Matching.halved.unmatchedEquations, id ∈ Incidence.doubled.ids := by decide
  have hstray : ∃ id ∈ Block.doubled.ids, Matching.halved.assignment.slotOf? id = none :=
    ⟨"eq[1]", by decide, by decide⟩
  have hwritable : Incidence.doubled.SurplusWritable .halved := by
    intro id hid e he
    obtain rfl := List.mem_singleton.mp hid
    obtain rfl := Except.ok.inj he
    rfl
  obtain ⟨hdone, _, hdecide⟩ :=
    Incidence.issues_decide_consistency .doubled .halved [.doubled] hids
  obtain ⟨is, his⟩ := hdone.mpr hwritable
  have hflaw := (hdecide is his).1.mpr (by
    iterate 8 apply Or.inr
    exact ⟨.doubled, List.mem_singleton_self _, hstray⟩)
  exact ⟨hids, is, his, hflaw, hstray⟩

/-- The equation `n = 0`, which references no unknown. -/
def Entry.constant (n : Int) : Entry where
  id := "eq[0]"
  origin := .continuous
  position := 0
  source := .simple (.lit (.int n)) (.lit (.int 0))
  exprs := [.lit (.int n), .lit (.int 0)]
  assigned := none
  multiplicity := 1
  references := []

/-- There is nothing that the equation could be matched with. -/
def Matching.unassigned : Matching where
  slots := []
  assignment := .empty
  unmatchedEquations := ["eq[0]"]
  unmatchedSlots := []
  aborted := false

theorem Incidence.issues_constant {n : Int} (h : (Entry.constant n).isWritable = false) :
    Incidence.issues ⟨[.constant n]⟩ .unassigned [] = .error .unwritableInteger := by
  have hids : ∀ id ∈ Matching.unassigned.unmatchedEquations,
      id ∈ Incidence.ids ⟨[Entry.constant n]⟩ := fun id hid => hid
  obtain ⟨is, his⟩ | ⟨fault, hfault, rfl, _⟩ := (issues_fail hids []).succeeds_or
  · have hwritable := surplusWritable_of_issues his "eq[0]" (List.mem_singleton_self _) _ rfl
    cases h.symm.trans hwritable
  · exact hfault

/-- An equation with an integer of five thousand digits is left over. -/
theorem immense_surplus_fails : "eq[0]" ∈ Incidence.ids ⟨[.constant (Decimal.tens 5000)]⟩ ∧
    Incidence.issues ⟨[.constant (Decimal.tens 5000)]⟩ .unassigned [] =
      .error .unwritableInteger :=
  ⟨List.mem_singleton_self _, Incidence.issues_constant (by decide +kernel)⟩

end Causality
