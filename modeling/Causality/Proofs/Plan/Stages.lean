import Causality.Plan.Basic
import Causality.Proofs.Block.Decomposition
import Causality.Proofs.Matching.Perfect
import Causality.Proofs.Matching.Stages
import Causality.Proofs.Plan.Flaws

/-!
# Stages of an analysis

A plan holds what each stage of the analysis has made of the model. Its blocks are decomposed from
the matching, whether or not the search for it was stopped.
-/

namespace Causality

/-- A perfect matching leaves no entry out of the blocks. -/
theorem Incidence.Decomposed.perm_entries {g : Incidence} {a : Assignment}
    {slots : List Occurrence} {order : List (List String)}
    {parts : List (List (Entry × Occurrence))} {bs : List Block} (hids : g.ids.Nodup)
    (ha : g.IsPerfect slots a) (h : g.Decomposed a order parts bs) :
    (bs.flatMap (·.entries)).Perm g.entries := by
  have hperm : ((bs.flatMap (·.entries)).map (·.id)).Perm (g.entries.map (·.id)) := by
    rw [h.ids_entries]
    exact h.isOrder.perm.trans (ha.perm_ids hids)
  have hnodup := List.Nodup.of_map _ (hperm.nodup_iff.mpr hids)
  refine (hnodup.subperm fun e he => h.mem_entries he).perm_of_length_le ?_
  have hlength := hperm.length_eq
  rw [List.length_map, List.length_map] at hlength
  exact hlength.ge

theorem Incidence.Admits.unmatched_subset {g : Incidence} {x : Matching} (h : g.Admits x) :
    ∀ id ∈ x.unmatchedEquations, id ∈ g.ids :=
  fun _ hid => h.equations.subset (List.mem_append_right _ hid)

variable {m : Model} {settings : Settings} {p : Plan} {includeInitial : Bool} {g : Incidence}

theorem Settings.note_eq_ok : settings.note = .ok () ↔ settings.isWritable = true := by
  rw [note, whenWritable_eq_ok]
  exact and_iff_left rfl

/-- A search with a bound that can be written is never in want of its warning. -/
theorem Model.findMatching_of_isWritable (m : Model) (g : Incidence)
    (h : settings.isWritable = true) :
    m.findMatching g settings.maxSteps = .ok (m.matching g settings.maxSteps) := by
  have hwritable : settings.maxSteps.all isWritable = true := h
  rw [m.findMatching_eq, hwritable]
  simp

/-- The plan is what the stages of the analysis make of the model. -/
structure Model.Stages (m : Model) (settings : Settings) (p : Plan) : Prop where
  writable : settings.isWritable = true
  modelName : p.modelName = m.name
  incidence : m.incidence settings.includeInitial = .ok p.incidence
  matching : p.matching = m.matching p.incidence settings.maxSteps
  blocks : p.incidence.blocks p.matching.assignment = .ok p.blocks
  issues : p.incidence.issues p.matching p.blocks = .ok p.issues

theorem Model.analyze_eq_ok : m.analyze settings = .ok p ↔ m.Stages settings p := by
  simp only [Model.analyze, bind_eq_ok, pure_eq_ok]
  constructor
  · rintro ⟨⟨⟩, hnote, g, hg, x, hx, bs, hbs, issues, hissues, rfl⟩
    have hwritable := Settings.note_eq_ok.mp hnote
    rw [m.findMatching_of_isWritable g hwritable] at hx
    exact ⟨hwritable, rfl, hg, (Except.ok.inj hx).symm, hbs, hissues⟩
  · intro h
    obtain ⟨name, bs, issues, g, x⟩ := p
    obtain ⟨hwritable, rfl, hg, hx, hbs, hissues⟩ := h
    dsimp only at hg hx hbs hissues
    subst hx
    have hfound := m.findMatching_of_isWritable g hwritable
    exact ⟨(), Settings.note_eq_ok.mpr hwritable, g, hg, _, hfound, bs, hbs, issues, hissues, rfl⟩

theorem Model.placed (h : m.incidence includeInitial = .ok g) : g.Placed := by
  rw [Incidence.Placed, m.positions_eq h]
  exact List.nodup_range

theorem Model.admits (h : m.analyze settings = .ok p) : p.incidence.Admits p.matching := by
  have hstages := Model.analyze_eq_ok.mp h
  rw [hstages.matching]
  exact m.matching_admits hstages.incidence _

theorem Model.slots_of_analyze (h : m.analyze settings = .ok p) :
    p.matching.slots = m.slots p.incidence := by
  rw [(Model.analyze_eq_ok.mp h).matching, m.slots_matching]

theorem Model.isPerfect_of_isTotal (h : m.analyze settings = .ok p)
    (htotal : p.matching.isTotal = true) :
    p.incidence.IsPerfect (m.slots p.incidence) p.matching.assignment := by
  obtain ⟨hequations, hslots, _⟩ := Matching.isTotal_iff.mp htotal
  have hperfect := (m.admits h).isPerfect hequations hslots
  rwa [m.slots_of_analyze h] at hperfect

theorem Model.exists_decomposed (h : m.analyze settings = .ok p) :
    ∃ order parts, p.incidence.Decomposed p.matching.assignment order parts p.blocks := by
  have hstages := Model.analyze_eq_ok.mp h
  exact Incidence.exists_decomposed (m.nodup_ids hstages.incidence) (m.placed hstages.incidence)
    (m.admits h).isMatching hstages.blocks

end Causality
