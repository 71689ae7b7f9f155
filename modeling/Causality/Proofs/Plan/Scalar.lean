import Causality.Proofs.Equation.Bundles
import Causality.Proofs.Plan.Outcome
import Mathlib.Algebra.Order.BigOperators.Group.List

/-!
# Scalar blocks

An entry uses its slot in conditions and in the simple equations that are merged into it. The block
of a single entry is scalar if the uses are at most as many as the equations. Where each equation
uses the slot, this leaves one use to each of them and none to a condition. An equation without a
use makes room for a second one elsewhere.
-/

namespace Causality

variable {m : Model} {settings : Settings} {p : Plan} {b : Block} {g : Incidence} {e : Entry}
  {slot : Occurrence} {k : Bundle} {includeInitial : Bool}

/-! ### Uses of a slot -/

/-- How often expressions reference an unknown. What is below a left limit does not count. -/
def Model.uses (m : Model) (slot : Occurrence) (es : List Expr) : Nat :=
  (es.flatMap m.reads).count slot

theorem Model.uses_perm {es es' : List Expr} (h : es.Perm es') :
    m.uses slot es = m.uses slot es' :=
  (h.flatMap_right m.reads).count_eq slot

theorem Model.uses_append (es es' : List Expr) :
    m.uses slot (es ++ es') = m.uses slot es + m.uses slot es' := by
  rw [uses, List.flatMap_append, List.count_append]
  rfl

theorem Model.uses_equations (qs : List Equation) : m.uses slot (qs.flatMap (·.exprs)) =
    (qs.map fun q => m.uses slot q.exprs).sum := by
  induction qs with
  | nil => rfl
  | cons q rest ih => rw [List.flatMap_cons, uses_append, ih, List.map_cons, List.sum_cons]

/-- Numbers that are positive add up to no more than there are of them only if each is one. -/
theorem add_sum_le_length_iff {xs : List Nat} (h : ∀ x ∈ xs, 0 < x) (n : Nat) :
    n + xs.sum ≤ xs.length ↔ n = 0 ∧ ∀ x ∈ xs, x = 1 := by
  induction xs generalizing n with
  | nil => simp
  | cons x rest ih =>
    rw [List.forall_mem_cons] at h ⊢
    have hlength : rest.length ≤ rest.sum := List.length_le_sum_of_one_le rest h.2
    have hrest := ih h.2 0
    rw [List.sum_cons, List.length_cons]
    constructor
    · intro hle
      exact ⟨by omega, by omega, (hrest.mp (by omega)).2⟩
    · rintro ⟨rfl, rfl, hones⟩
      have hle := hrest.mpr ⟨rfl, hones⟩
      omega

/-! ### Entries as bundles -/

/-- The entry stands for the bundle of its source. -/
structure Entry.IsOf (e : Entry) (k : Bundle) : Prop where
  mem : k ∈ e.source.bundles
  residual : k.residual = ⟨e.assigned, e.exprs, e.multiplicity⟩

theorem Model.exists_bundle (h : m.incidence includeInitial = .ok g) (he : e ∈ g.entries) :
    ∃ k, e.IsOf k := by
  obtain ⟨l, r, hresidual⟩ := m.exists_residual h he
  obtain ⟨rs, hrs, hr⟩ := hresidual.residuals
  obtain ⟨_, rfl⟩ := Equation.residuals_eq_ok.mp hrs
  obtain ⟨k, hk, rfl⟩ := List.mem_map.mp hr
  refine ⟨k, hresidual.source ▸ hk, ?_⟩
  rw [hresidual.assigned, hresidual.exprs, hresidual.multiplicity]

theorem Model.count_eq_uses (h : m.incidence includeInitial = .ok g) (he : e ∈ g.entries)
    (hk : e.IsOf k) : e.count slot =
      m.uses slot k.conditions + (k.equations.map fun q => m.uses slot q.exprs).sum := by
  have hexprs : k.exprs = e.exprs := congrArg Residual.exprs hk.residual
  have hperm := (e.source.isMadeFrom k hk.mem).exprs
  rw [Entry.count, (m.entry_reads h he).2, ← m.uses_equations, ← m.uses_append, ← hexprs]
  exact m.uses_perm hperm

/-! ### Blocks of one entry -/

theorem Block.ofMembers_kind {members : List (Entry × Occurrence)}
    (h : Block.ofMembers members = .ok b) :
    (b.kind = .scalar → ∃ e slot, b.entries = [e] ∧ b.slots = [slot]) ∧
      ∀ e slot, b.entries = [e] → b.slots = [slot] →
        (b.kind = .scalar ↔ e.count slot ≤ e.multiplicity) := by
  obtain ⟨solution, _, rfl⟩ := Block.ofMembers_eq_ok.mp h
  match members with
  | [] => simp [kindOf]
  | [(e, slot)] =>
    refine ⟨fun _ => ⟨e, slot, rfl, rfl⟩, fun e' slot' he hslot => ?_⟩
    obtain rfl := List.singleton_injective he
    obtain rfl := List.singleton_injective hslot
    simp [kindOf, Entry.isSelfDependent]
  | _ :: _ :: _ => simp [kindOf]

/-- A scalar block has one entry and one slot. The entry stands for a bundle of its source.
Whichever that is, the block is scalar exactly if conditions and merged equations together use the
slot at most as often as there are equations. It is if no condition uses the slot and no equation
uses it twice. If every equation uses the slot, this is the only way. -/
theorem Model.scalar_iff_uses (m : Model) (settings : Settings) (p : Plan)
    (h : m.analyze settings = .ok p) (b : Block) (hb : b ∈ p.blocks) :
    (b.kind = .scalar → ∃ e slot, b.entries = [e] ∧ b.slots = [slot]) ∧
    ∀ e slot, b.entries = [e] → b.slots = [slot] →
      (∃ k, e.IsOf k) ∧ ∀ k, e.IsOf k → k.IsMadeFrom e.source ∧
        (b.kind = .scalar ↔
          m.uses slot k.conditions + (k.equations.map fun q => m.uses slot q.exprs).sum ≤
            k.equations.length) ∧
        (m.uses slot k.conditions = 0 → (∀ q ∈ k.equations, m.uses slot q.exprs ≤ 1) →
          b.kind = .scalar) ∧
        ((∀ q ∈ k.equations, 0 < m.uses slot q.exprs) →
          (b.kind = .scalar ↔ m.uses slot k.conditions = 0 ∧
            ∀ q ∈ k.equations, m.uses slot q.exprs = 1)) := by
  have hg := (Model.analyze_eq_ok.mp h).incidence
  obtain ⟨order, parts, hd⟩ := m.exists_decomposed h
  obtain ⟨members, _, hmembers⟩ := Forall₂.exists_left hd.blocks hb
  obtain ⟨hscalar, hkind⟩ := Block.ofMembers_kind hmembers
  refine ⟨hscalar, fun e slot hentries hslots => ?_⟩
  have he : e ∈ p.incidence.entries :=
    hd.mem_entries (List.mem_flatMap.mpr ⟨b, hb, hentries ▸ List.mem_singleton_self e⟩)
  refine ⟨m.exists_bundle hg he, fun k hk => ⟨e.source.isMadeFrom k hk.mem, ?_⟩⟩
  have hmultiplicity : k.equations.length = e.multiplicity :=
    congrArg Residual.multiplicity hk.residual
  have hthreshold := hkind e slot hentries hslots
  rw [m.count_eq_uses hg he hk, ← hmultiplicity] at hthreshold
  refine ⟨hthreshold, fun hconditions hequations => ?_, fun hequations => ?_⟩
  · rw [hthreshold, hconditions, Nat.zero_add]
    have hsum := List.sum_le_card_nsmul (k.equations.map fun q => m.uses slot q.exprs) 1
      (List.forall_mem_map.mpr hequations)
    simpa using hsum
  · have hiff := add_sum_le_length_iff (List.forall_mem_map.mpr hequations)
      (m.uses slot k.conditions)
    rw [List.length_map, List.forall_mem_map] at hiff
    exact hthreshold.trans hiff

/-- The branches `y = x * x` and `y = 4`, and the equation `y * y = 5`, which leaves `x` to them. -/
def Draft.gated : Draft where
  name := "gated"
  vars := [.ofRole .input "u" (by decide), .unknown "x" x_ne_empty, .unknown "y" y_ne_empty]
  equations
    | .continuous =>
      [.choice .ifThen
        [.mk (.binary .gt (.var "u") (.lit (.int 0)))
          [.simple (.var "y") (.binary .mul (.var "x") (.var "x"))]]
        (some [.simple (.var "y") (.lit (.int 4))]),
        .simple (.binary .mul (.var "y") (.var "y")) (.lit (.int 5))]
    | _ => []
  description := ""

theorem Draft.elaborate_gated : Draft.gated.elaborate = .ok Draft.gated.asDeclared := by
  apply Draft.elaborate_of_sections
  · cbv
  · cbv
  · intro s
    cases s <;> cbv
  · intro s
    cases s <;> cbv

def Model.gated : Model where
  toDraft := .gated
  expanded := Draft.gated.asDeclared
  accepted := Draft.elaborate_gated

def Entry.gated : Entry where
  id := "eq[0]"
  origin := .continuous
  position := 0
  source :=
    .choice .ifThen
      [.mk (.binary .gt (.var "u") (.lit (.int 0)))
        [.simple (.var "y") (.binary .mul (.var "x") (.var "x"))]]
      (some [.simple (.var "y") (.lit (.int 4))])
  exprs := [.binary .gt (.var "u") (.lit (.int 0)), .var "y", .binary .mul (.var "x") (.var "x"),
    .var "y", .lit (.int 4)]
  assigned := some "y"
  multiplicity := 2
  references := [⟨"y", .value⟩, ⟨"x", .value⟩, ⟨"x", .value⟩, ⟨"y", .value⟩]

theorem Model.exists_gated : ∃ p b, Model.gated.analyze .standard = .ok p ∧ b ∈ p.blocks ∧
    b.kind = .scalar ∧ b.entries = [.gated] ∧ b.slots = [⟨"x", .value⟩] := by
  have hfacts : (Model.gated.analyze .standard).map (fun p =>
      (p.blocks.map fun b => (b.kind, b.entries, b.slots))[1]?) =
        .ok (some (.scalar, [.gated], [⟨"x", .value⟩])) := by cbv
  obtain ⟨p, hp, hblocks⟩ := map_eq_ok.mp hfacts
  rw [List.getElem?_map, Option.map_eq_some_iff] at hblocks
  obtain ⟨b, hb, hfields⟩ := hblocks
  rw [Prod.mk.injEq, Prod.mk.injEq] at hfields
  exact ⟨p, b, hp, List.mem_of_getElem? hb, hfields⟩

/-- Both uses of `x` are in the first branch, and there are two branches. -/
theorem gated_block_threshold : ∃ p b, Model.gated.analyze .standard = .ok p ∧ b ∈ p.blocks ∧
    b.entries = [.gated] ∧ ∀ k, Entry.gated.IsOf k →
      Model.gated.uses ⟨"x", .value⟩ k.conditions +
        (k.equations.map fun q => Model.gated.uses ⟨"x", .value⟩ q.exprs).sum ≤
          k.equations.length := by
  obtain ⟨p, b, hp, hb, hscalar, hentries, hslots⟩ := Model.exists_gated
  obtain ⟨_, huses⟩ := (Model.scalar_iff_uses .gated .standard p hp b hb).2 _ _ hentries hslots
  exact ⟨p, b, hp, hb, hentries, fun k hk => (huses k hk).2.1.mp hscalar⟩

/-- The block of the branches is scalar, although one branch uses its slot twice. -/
theorem gated_block_uses_twice : ∃ p b k q, Model.gated.analyze .standard = .ok p ∧
    b ∈ p.blocks ∧ b.kind = .scalar ∧ b.entries = [.gated] ∧ b.slots = [⟨"x", .value⟩] ∧
    Entry.gated.IsOf k ∧ q ∈ k.equations ∧ Model.gated.uses ⟨"x", .value⟩ q.exprs = 2 := by
  obtain ⟨p, b, hp, hb, hscalar, hentries, hslots⟩ := Model.exists_gated
  exact ⟨p, b, _, _, hp, hb, hscalar, hentries, hslots,
    ⟨List.mem_of_getElem? (i := 0) rfl, rfl⟩, List.mem_of_getElem? (i := 0) rfl, by cbv⟩

end Causality
