import Causality.Proofs.Incidence.Turned
import Causality.Proofs.Plan.Outcome

/-!
# Plans of models turned around

An equation has no direction: with its sides exchanged it has the same place in the same blocks.
There are two exceptions. A scalar that is equated with arrays is refused on the left side and
repeated for each element on the right one, and an equation may be solved in one direction where
the literals are too large for the other.
-/

namespace Causality

/-- The ids of the entries, and how often each unknown is referenced. -/
def Incidence.outline (g : Incidence) : List (String × (Occurrence → Nat)) :=
  g.entries.map fun e => (e.id, e.count)

/-- The block without the form of its equations and its solution. -/
def Block.outline (b : Block) : BlockKind × List String × List Occurrence :=
  (b.kind, b.ids, b.slots)

/-! ### Blocks -/

/-- The same entry in one direction or the other, with the same slot. -/
def TurnedMember (p p' : Entry × Occurrence) : Prop := p.1.Turns p'.1 ∧ p.2 = p'.2

theorem Block.kindOf_turn {part part' : List (Entry × Occurrence)}
    (h : List.Forall₂ TurnedMember part part') : kindOf part' = kindOf part := by
  match h with
  | .nil => rfl
  | .cons hp .nil =>
    obtain ⟨he, hslot⟩ := hp
    rw [kindOf, kindOf, he.isSelfDependent_eq, hslot]
  | .cons _ (.cons _ _) => rfl

theorem Block.outline_turn {part part' : List (Entry × Occurrence)} {b b' : Block}
    (h : List.Forall₂ TurnedMember part part') (hb : ofMembers part = .ok b)
    (hb' : ofMembers part' = .ok b') : b'.outline = b.outline := by
  obtain ⟨_, _, rfl⟩ := ofMembers_eq_ok.mp hb
  obtain ⟨_, _, rfl⟩ := ofMembers_eq_ok.mp hb'
  have hids : (part'.map (·.1)).map (·.id) = (part.map (·.1)).map (·.id) := by
    rw [List.map_map, List.map_map]
    exact Forall₂.map_eq (h.flip.imp fun _ _ hp => hp.1.id)
  have hslots : part'.map (·.2) = part.map (·.2) :=
    Forall₂.map_eq (h.flip.imp fun _ _ hp => hp.2.symm)
  simp only [outline, Block.ids, kindOf_turn h, hids, hslots]

namespace Incidence

variable {g g' : Incidence} {a : Assignment} {ids : List String} {bs bs' : List Block}
  {part part' : List (Entry × Occurrence)} (h : List.Forall₂ Entry.Turns g.entries g'.entries)

include h

theorem outline_turn : g'.outline = g.outline :=
  Forall₂.map_eq (h.flip.imp fun _ _ he => Prod.ext he.id he.count_eq)

theorem members_turn (hids : g'.ids.Nodup) (hpart : List.Forall₂ (g.IsMember a) ids part)
    (hpart' : List.Forall₂ (g'.IsMember a) ids part') : List.Forall₂ TurnedMember part part' := by
  apply (Forall₂.comp hpart.flip hpart').imp
  rintro p p' ⟨id, hp, hp'⟩
  obtain ⟨e', he', hturns⟩ := Forall₂.exists_right h hp.mem
  have hid : e'.id = p'.1.id := hturns.id.trans (hp.id_eq.trans hp'.id_eq.symm)
  obtain rfl := entry_unique hids he' hp'.mem hid
  exact ⟨hturns, Assignment.slot_unique hp.assigned hp'.assigned⟩

theorem surplusWritable_turn (hids : g.ids.Nodup) {x : Matching} (hx : g.SurplusWritable x) :
    g'.SurplusWritable x := by
  have hids' : g'.ids.Nodup := by rwa [ids_turn h]
  intro id hid e' he'
  obtain ⟨hmem', rfl⟩ := (entry_eq_ok hids').mp he'
  obtain ⟨e, hmem, hturns⟩ := Forall₂.exists_left h hmem'
  rw [hturns.isWritable_eq]
  exact hx _ hid e ((entry_eq_ok hids).mpr ⟨hmem, hturns.id.symm⟩)

theorem blocks_turn (hids : g.ids.Nodup) (hbs : g.blocks a = .ok bs)
    (hbs' : g'.blocks a = .ok bs') : bs'.map Block.outline = bs.map Block.outline := by
  have hids' : g'.ids.Nodup := by rwa [ids_turn h]
  obtain ⟨order, parts, horder, hmembers, hblocks⟩ := (blocks_eq_ok hids).mp hbs
  obtain ⟨order', parts', horder', hmembers', hblocks'⟩ := (blocks_eq_ok hids').mp hbs'
  rw [components_turn h, horder, Except.ok.injEq] at horder'
  subst horder'
  have hparts : List.Forall₂ (List.Forall₂ TurnedMember) parts parts' := by
    apply (Forall₂.comp hmembers.flip hmembers').imp
    rintro part part' ⟨ids, hpart, hpart'⟩
    exact members_turn h hids' hpart hpart'
  apply Forall₂.map_eq
  apply (Forall₂.comp hblocks'.flip (Forall₂.comp hparts.flip hblocks)).imp
  rintro b' b ⟨part', hb', part, hpart, hb⟩
  exact Block.outline_turn hpart hb hb'

end Incidence

/-! ### Plans -/

/-- With its sides exchanged, the equation has the same entries, is matched with the same slots and
is in the same blocks, unless it cannot be solved for the size of its literals. -/
theorem Model.analyze_turn {m m' : Model} {settings : Settings} {p : Plan}
    (h : m.toDraft.Turns m'.toDraft) (hp : m.analyze settings = .ok p) :
    (∃ p', m'.analyze settings = .ok p' ∧ p'.incidence.outline = p.incidence.outline ∧
      p'.matching = p.matching ∧ p'.blocks.map Block.outline = p.blocks.map Block.outline) ∨
    m'.analyze settings = .error (.conversion .tooLarge) := by
  obtain ⟨hwritable, _, hg, hx, hbs, hissues⟩ := Model.analyze_eq_ok.mp hp
  obtain ⟨g', hg', hturns⟩ := Model.exists_incidence_turn h hg
  obtain ⟨p', hp'⟩ | ⟨fault, hfault, hlate⟩ :=
    (Model.analyze_fails_late hwritable hg').succeeds_or
  · obtain ⟨_, _, hpg', hx', hbs', _⟩ := Model.analyze_eq_ok.mp hp'
    obtain rfl := Except.ok.inj (hg'.symm.trans hpg')
    have hids := m.nodup_ids hg
    have hmatching : p'.matching = p.matching := by
      rw [hx, hx']
      exact Incidence.matching_turn hturns h.vars hids settings.maxSteps
    rw [hmatching] at hbs'
    exact .inl ⟨p', hp', Incidence.outline_turn hturns, hmatching,
      Incidence.blocks_turn hturns hids hbs hbs'⟩
  · cases hlate with
    | overflow => exact .inr hfault
    | surplus hlong =>
      have hsurplus := Incidence.surplusWritable_turn hturns (m.nodup_ids hg)
        (Incidence.surplusWritable_of_issues hissues)
      rw [hx] at hsurplus
      rw [Incidence.matching_turn hturns h.vars (m.nodup_ids hg)] at hlong
      exact absurd hsurplus hlong

/-- If one side of an equation is a scalar that is equated with arrays, at most one direction is
accepted. Otherwise both are or none is. The incidence and the matching are the same in both
directions, and so are the blocks of the plan, if there is one for both. -/
theorem Draft.direction_matters_for_scalars_only (d : Draft) (s : Section) (i : Nat)
    (lhs rhs : Expr) (h : (d.equations s)[i]? = some (.simple lhs rhs)) :
    (¬ d.EquatesScalar lhs rhs → ((∃ expanded, d.elaborate = .ok expanded) ↔
      ∃ expanded, (d.turn s i).elaborate = .ok expanded)) ∧
    (d.EquatesScalar lhs rhs → ¬ ((∃ expanded, d.elaborate = .ok expanded) ∧
      ∃ expanded, (d.turn s i).elaborate = .ok expanded)) ∧
    ∀ m m' : Model, m.toDraft = d → m'.toDraft = d.turn s i → ∀ settings : Settings,
      (∀ g, m.incidence settings.includeInitial = .ok g →
        ∃ g', m'.incidence settings.includeInitial = .ok g' ∧ g'.outline = g.outline ∧
          m'.matching g' settings.maxSteps = m.matching g settings.maxSteps) ∧
      ∀ p, m.analyze settings = .ok p →
        (∃ p', m'.analyze settings = .ok p' ∧ p'.incidence.outline = p.incidence.outline ∧
          p'.matching = p.matching ∧ p'.blocks.map Block.outline = p.blocks.map Block.outline) ∨
        m'.analyze settings = .error (.conversion .tooLarge) := by
  refine ⟨Draft.elaborate_turn_iff h, fun hscalar => hscalar.not_both h, ?_⟩
  intro m m' hm hm' settings
  have hturns : m.toDraft.Turns m'.toDraft := by
    rw [hm', ← hm]
    exact m.toDraft.turns_turn s i
  refine ⟨fun g hg => ?_, fun p => Model.analyze_turn hturns⟩
  obtain ⟨g', hg', hentries⟩ := Model.exists_incidence_turn hturns hg
  exact ⟨g', hg', Incidence.outline_turn hentries,
    Incidence.matching_turn hentries hturns.vars (m.nodup_ids hg) settings.maxSteps⟩

/-- The equation `x = x * x` for both elements of an array. -/
def Draft.idempotents : Draft where
  name := "idempotents"
  vars := [.pair "x" x_ne_empty]
  equations
    | .continuous => [.simple (.var "x") (.binary .mul (.var "x") (.var "x"))]
    | _ => []
  description := ""

def Draft.idempotentsExpanded : Section → List Labelled
  | .continuous =>
    [⟨"eq[0][1]", .simple (.var "x[1]") (.binary .mul (.var "x[1]") (.var "x[1]"))⟩,
      ⟨"eq[0][2]", .simple (.var "x[2]") (.binary .mul (.var "x[2]") (.var "x[2]"))⟩]
  | _ => []

theorem Draft.elaborate_idempotents :
    Draft.idempotents.elaborate = .ok Draft.idempotentsExpanded := by
  apply Draft.elaborate_of_sections
  · rfl
  · cbv
  · intro s
    cases s <;> cbv
  · intro s
    cases s <;> cbv

def Model.idempotents : Model where
  toDraft := .idempotents
  expanded := Draft.idempotentsExpanded
  accepted := Draft.elaborate_idempotents

def Draft.idempotentsTurned : Section → List Labelled
  | .continuous =>
    [⟨"eq[0][1]", .simple (.binary .mul (.var "x[1]") (.var "x[1]")) (.var "x[1]")⟩,
      ⟨"eq[0][2]", .simple (.binary .mul (.var "x[2]") (.var "x[2]")) (.var "x[2]")⟩]
  | _ => []

theorem Draft.elaborate_idempotentsTurned :
    (Draft.idempotents.turn .continuous 0).elaborate = .ok Draft.idempotentsTurned := by
  apply Draft.elaborate_of_sections
  · rfl
  · cbv
  · intro s
    cases s <;> cbv
  · intro s
    cases s <;> cbv

def Model.idempotentsTurned : Model where
  toDraft := Draft.idempotents.turn .continuous 0
  expanded := Draft.idempotentsTurned
  accepted := Draft.elaborate_idempotentsTurned

/-- Only the first direction assigns `x`, but in both each element is a block of its own. -/
theorem idempotents_turned_alike : ∃ p p', Model.idempotents.analyze .standard = .ok p ∧
    Model.idempotentsTurned.analyze .standard = .ok p' ∧
    p'.incidence.outline = p.incidence.outline ∧ p'.matching = p.matching ∧
    p'.blocks.map Block.outline = p.blocks.map Block.outline ∧
    p.blocks.map (·.ids) = [["eq[0][1]"], ["eq[0][2]"]] := by
  have hfacts : (Model.idempotents.analyze .standard).map (fun p => p.blocks.map (·.ids)) =
      .ok [["eq[0][1]"], ["eq[0][2]"]] := by cbv
  have hfacts' : (Model.idempotentsTurned.analyze .standard).map (fun p => p.blocks.length) =
      .ok 2 := by cbv
  obtain ⟨p, hp, hblocks⟩ := map_eq_ok.mp hfacts
  obtain ⟨q, hq, _⟩ := map_eq_ok.mp hfacts'
  obtain ⟨_, _, hanalyses⟩ := Draft.direction_matters_for_scalars_only .idempotents .continuous 0
    (.var "x") (.binary .mul (.var "x") (.var "x")) rfl
  obtain ⟨p', hp', houtline, hmatching, houtlines⟩ | hfault :=
    (hanalyses .idempotents .idempotentsTurned rfl rfl .standard).2 p hp
  · exact ⟨p, p', hp, hp', houtline, hmatching, houtlines, hblocks⟩
  · cases hq.symm.trans hfault

/-- The equation `x = y` of an array `x` and a scalar `y`. -/
def Draft.spread : Draft where
  name := "spread"
  vars := [.pair "x" x_ne_empty, .unknown "y" y_ne_empty]
  equations
    | .continuous => [.simple (.var "x") (.var "y")]
    | _ => []
  description := ""

def Draft.spreadExpanded : Section → List Labelled
  | .continuous =>
    [⟨"eq[0][1]", .simple (.var "x[1]") (.var "y")⟩, ⟨"eq[0][2]", .simple (.var "x[2]") (.var "y")⟩]
  | _ => []

theorem Draft.elaborate_spread : Draft.spread.elaborate = .ok Draft.spreadExpanded := by
  apply Draft.elaborate_of_sections
  · rfl
  · cbv
  · intro s
    cases s <;> cbv
  · intro s
    cases s <;> cbv

/-- The equation stands for one of each element, and is refused with its sides exchanged. -/
theorem spread_has_direction : Draft.spread.elaborate = .ok Draft.spreadExpanded ∧
    (Draft.spread.turn .continuous 0).elaborate =
      .error (.scalarWithArray "eq[0]" "y" (.simple (.var "y") (.var "x"))) :=
  ⟨Draft.elaborate_spread, by rfl⟩

end Causality
