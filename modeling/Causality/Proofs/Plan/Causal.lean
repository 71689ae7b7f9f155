import Causality.Proofs.Affine.Freedom
import Causality.Proofs.Plan.Triangular
import Causality.Proofs.Plan.Verdict

/-!
# Solutions are causal

A block with a solution holds one simple equation that references its slot once. The solution is
made of parts of the equation that are free of the slot, so it uses only what the equation
references otherwise: slots of earlier blocks, and values of states that are no slots.
-/

namespace Causality

open Causality.Expr (IsAffine IsRoot Hereditary)

variable {m : Model} {g : Incidence} {a : Assignment} {order : List (List String)}
  {parts : List (List (Entry × Occurrence))} {bs before after : List Block} {b : Block}
  {e : Entry} {slot o : Occurrence} {lhs rhs s : Expr}

theorem Block.solutionOf_eq_some {members : List (Entry × Occurrence)}
    (h : Block.solutionOf members = .ok (some s)) : ∃ e slot lhs rhs, members = [(e, slot)] ∧
      e.isSelfDependent slot = false ∧ e.source = .simple lhs rhs ∧
        solveFor slot lhs rhs = .ok (some s) := by
  unfold Block.solutionOf at h
  split at h
  · next e slot =>
    by_cases hself : e.isSelfDependent slot = true
    · rw [if_pos hself] at h
      cases h
    rw [if_neg hself, Entry.solution?] at h
    split at h
    · next lhs rhs hsource =>
      exact ⟨e, slot, lhs, rhs, rfl, Bool.eq_false_iff.mpr hself, hsource, h⟩
    · cases h
  · cases h

theorem Block.ofMembers_of_solveFor (hself : e.isSelfDependent slot = false)
    (hsource : e.source = .simple lhs rhs) (h : solveFor slot lhs rhs = .ok (some s)) :
    ofMembers [(e, slot)] = .ok ⟨.scalar, [e], [slot], some s⟩ := by
  rw [ofMembers, ofMember, if_neg (Bool.eq_false_iff.mp hself), Entry.solution?, hsource]
  exact bind_eq_ok.mpr ⟨_, h, rfl⟩

namespace Incidence

structure Solves (g : Incidence) (a : Assignment) (b : Block) (e : Entry) (slot : Occurrence)
    (lhs rhs s : Expr) : Prop where
  entries : b.entries = [e]
  slots : b.slots = [slot]
  mem : e ∈ g.entries
  assigned : (e.id, slot) ∈ a.pairs
  source : e.source = .simple lhs rhs
  independent : e.isSelfDependent slot = false
  solution : solveFor slot lhs rhs = .ok (some s)

namespace Decomposed

theorem exists_solves (h : g.Decomposed a order parts bs) (hb : b ∈ bs)
    (hs : b.solution = some s) : ∃ e slot lhs rhs, g.Solves a b e slot lhs rhs s := by
  obtain ⟨part, hpart, hofMembers⟩ := Forall₂.exists_left h.blocks hb
  obtain ⟨solution, hsolution, rfl⟩ := Block.ofMembers_eq_ok.mp hofMembers
  obtain rfl : solution = some s := hs
  obtain ⟨e, slot, lhs, rhs, rfl, hindependent, hsource, hsolve⟩ :=
    Block.solutionOf_eq_some hsolution
  obtain ⟨ids, _, hids⟩ := Forall₂.exists_left h.members hpart
  obtain ⟨id, _, hmember⟩ := Forall₂.exists_left hids (List.mem_singleton_self (e, slot))
  refine ⟨e, slot, lhs, rhs, rfl, rfl, hmember.mem, ?_, hsource, hindependent, hsolve⟩
  rw [hmember.id_eq]
  exact hmember.assigned

theorem notMem_later (h : g.Decomposed a order parts bs) (hn : a.slots.Nodup) :
    bs.Pairwise fun b c => ∀ e ∈ b.entries, ∀ o ∈ e.references, o ∉ c.slots := by
  refine List.Pairwise.imp_of_mem ?_ (h.mark_eq_zero hn)
  intro b c hb _ hmark e he o ho hoc
  have hmem := h.mem_entries (List.mem_flatMap.mpr ⟨b, hb, he⟩)
  have hone := mark_eq_one.mpr ⟨e, hmem, rfl, ho⟩
  rw [hmark e.id (List.mem_map_of_mem he) o hoc] at hone
  cases hone

/-- What an equation references beyond its own block is determined in an earlier one. -/
theorem exists_earlier (h : g.Decomposed a order parts bs) (hn : a.slots.Nodup)
    (hbs : bs = before ++ b :: after) (he : e ∈ b.entries) (ho : o ∈ e.references)
    (hown : o ∉ b.slots) (hassigned : o ∈ a.slots) : ∃ c ∈ before, o ∈ c.slots := by
  obtain ⟨c, hc, hoc⟩ := List.mem_flatMap.mp (h.perm_slots.symm.subset hassigned)
  have hlater := h.notMem_later hn
  rw [hbs] at hc hlater
  rcases List.mem_append.mp hc with hc | hc
  · exact ⟨c, hc, hoc⟩
  rcases List.mem_cons.mp hc with rfl | hc
  · exact absurd hoc hown
  · exact absurd hoc ((List.pairwise_cons.mp (List.pairwise_append.mp hlater).2.1).1 c hc e he o ho)

end Decomposed

end Incidence

/-! ### The references of a solution -/

/-- The equation that the block solves references the slot once, and the solution is its root. -/
structure Model.Computes (m : Model) (e : Entry) (slot : Occurrence) (lhs rhs s : Expr) : Prop where
  simple : m.IsSimple lhs rhs e
  isUnknown : m.IsUnknown slot
  count : (m.reads lhs ++ m.reads rhs).count slot ≤ 1
  root : ∃ f g numerator divisor, IsRoot slot lhs rhs f g numerator divisor ∧
    s = numerator.quotient divisor

namespace Model

theorem computes {includeInitial : Bool} (hg : m.incidence includeInitial = .ok g)
    (hslot : slot ∈ m.slots g) (h : g.Solves a b e slot lhs rhs s) :
    m.Computes e slot lhs rhs s where
  simple := m.isSimple_of_source hg h.mem h.source
  isUnknown := m.isUnknown_of_mem_slots hslot
  count := by
    have hsimple := m.isSimple_of_source hg h.mem h.source
    have hindependent := h.independent
    rw [Entry.isSelfDependent, decide_eq_false_iff_not, hsimple.multiplicity, Entry.count,
      hsimple.references] at hindependent
    omega
  root := Expr.exists_root h.solution

namespace Computes

variable {p : Expr → Prop}

theorem inherits (h : m.Computes e slot lhs rhs s) (hp : Hereditary p) (hlhs : p lhs)
    (hrhs : p rhs) : p s := by
  obtain ⟨f, g, numerator, divisor, hroot, rfl⟩ := h.root
  obtain ⟨hnumerator, hdivisor⟩ := hroot.inherits hp hlhs hrhs
  exact hp.quotient hnumerator hdivisor

theorem mem_references (h : m.Computes e slot lhs rhs s) : ∀ o ∈ m.reads s, o ∈ e.references :=
  h.inherits (m.hereditary_reads (· ∈ e.references)) h.simple.mem_references.1
    h.simple.mem_references.2

theorem notMem (h : m.Computes e slot lhs rhs s) : slot ∉ m.reads s := by
  obtain ⟨f, g, numerator, divisor, hroot, rfl⟩ := h.root
  obtain ⟨hnumerator, hdivisor⟩ := hroot.notMem h.isUnknown h.count
  exact (m.hereditary_notMem slot).quotient hnumerator hdivisor

theorem known (h : m.Computes e slot lhs rhs s) : s.Known :=
  h.inherits ⟨fun _ => trivial, fun _ => Iff.rfl, fun _ _ _ => Iff.rfl⟩
    (h.simple.left.plain.known lhs) (h.simple.right.plain.known rhs)

theorem occurrences_eq (h : m.Computes e slot lhs rhs s) (id : String) :
    m.occurrences id [s] = .ok (m.reads s) := by
  have hresolves : m.Resolves s :=
    h.inherits (hereditary_sites _) h.simple.left.resolves h.simple.right.resolves
  refine (m.occurrences_eq_ok (List.forall_mem_singleton.mpr h.known)).mpr ⟨?_, ?_⟩
  · exact List.forall_mem_singleton.mpr hresolves
  · exact (List.append_nil _).symm

theorem slot_or_state (h : m.Computes e slot lhs rhs s) (he : e ∈ g.entries) (ho : o ∈ m.reads s) :
    o ∈ m.slots g ∨ o.kind = .value ∧ ∃ v ∈ m.vars, v.isState = true ∧ o.name ∈ v.elementNames := by
  have hreference := h.mem_references o ho
  have hdifferentiated : o.isDerivative = true → g.differentiates o.name = true := by
    intro hderivative
    obtain ⟨name, kind⟩ := o
    obtain rfl : kind = .derivative := by simpa [Occurrence.isDerivative] using hderivative
    exact List.any_eq_true.mpr ⟨e, he, List.contains_iff_mem.mpr hreference⟩
  rw [h.simple.references] at hreference
  rcases List.mem_append.mp hreference with hlhs | hrhs
  · exact h.simple.left.slot_or_state hlhs hdifferentiated
  · exact h.simple.right.slot_or_state hrhs hdifferentiated

end Computes

end Model

/-! ### Plans -/

theorem Model.exists_computes {m : Model} {settings : Settings} {p : Plan}
    (h : m.analyze settings = .ok p) (hb : b ∈ p.blocks) (hs : b.solution = some s) :
    ∃ e slot lhs rhs, p.incidence.Solves p.matching.assignment b e slot lhs rhs s ∧
      m.Computes e slot lhs rhs s := by
  have hg := (Model.analyze_eq_ok.mp h).incidence
  obtain ⟨order, parts, hd⟩ := m.exists_decomposed h
  obtain ⟨e, slot, lhs, rhs, hsolves⟩ := hd.exists_solves hb hs
  refine ⟨e, slot, lhs, rhs, hsolves, m.computes hg ?_ hsolves⟩
  rw [← m.slots_of_analyze h]
  exact (m.admits h).isMatching.mem_slots slot (Assignment.mem_slots.mpr ⟨_, hsolves.assigned⟩)

/-- A solution uses neither its own slot nor one that is determined later. If the plan is well
posed, it uses slots of earlier blocks and values of states without a slot only. -/
theorem Model.solutions_are_causal (m : Model) (settings : Settings) (p : Plan)
    (h : m.analyze settings = .ok p) (before : List Block) (b : Block) (after : List Block)
    (hblocks : p.blocks = before ++ b :: after) (s : Expr) (hs : b.solution = some s) :
    ∃ os, (∀ id, m.occurrences id [s] = .ok os) ∧ (∀ slot ∈ b.slots, slot ∉ os) ∧
      (∀ o ∈ os, o ∈ p.matching.assignment.slots → ∃ c ∈ before, o ∈ c.slots) ∧
      (p.isWellPosed = true → ∀ o ∈ os, (∃ c ∈ before, o ∈ c.slots) ∨
        o.kind = .value ∧ o ∉ m.slots p.incidence ∧
          ∃ v ∈ m.vars, v.isState = true ∧ o.name ∈ v.elementNames) := by
  have hb : b ∈ p.blocks := by simp [hblocks]
  obtain ⟨e, slot, lhs, rhs, hsolves, hcomputes⟩ := m.exists_computes h hb hs
  obtain ⟨order, parts, hd⟩ := m.exists_decomposed h
  have hown : ∀ o ∈ b.slots, o ∉ m.reads s := by
    rw [hsolves.slots, List.forall_mem_singleton]
    exact hcomputes.notMem
  have hearlier : ∀ o ∈ m.reads s, o ∈ p.matching.assignment.slots → ∃ c ∈ before, o ∈ c.slots := by
    intro o ho
    refine hd.exists_earlier (m.admits h).isMatching.nodup hblocks ?_
      (hcomputes.mem_references o ho) (fun hmem => hown o hmem ho)
    rw [hsolves.entries]
    exact List.mem_singleton_self e
  refine ⟨m.reads s, hcomputes.occurrences_eq, hown, hearlier, fun hposed o ho => ?_⟩
  have hperfect := m.isPerfect_of_isTotal h ((m.isWellPosed_iff_isTotal h).mp hposed)
  by_cases hmem : o ∈ m.slots p.incidence
  · exact .inl (hearlier o ho (hperfect.used o hmem))
  · obtain ⟨hvalue, hstate⟩ := (hcomputes.slot_or_state hsolves.mem ho).resolve_left hmem
    exact .inr ⟨hvalue, hmem, hstate⟩

/-! ### A plan with solutions -/

namespace Plan.decaying

def decay : Entry where
  id := "eq[0]"
  origin := .continuous
  position := 0
  source := .simple (.binary .add (.der (.var "x")) (.var "x")) (.var "y")
  exprs := [.binary .add (.der (.var "x")) (.var "x"), .var "y"]
  assigned := none
  multiplicity := 1
  references := [⟨"x", .derivative⟩, ⟨"x", .value⟩, ⟨"y", .value⟩]

def scale : Entry where
  id := "eq[1]"
  origin := .continuous
  position := 1
  source := .simple (.binary .mul (.lit (.int 2)) (.binary .mul (.lit (.int 3)) (.var "y")))
    (.var "x")
  exprs := [.binary .mul (.lit (.int 2)) (.binary .mul (.lit (.int 3)) (.var "y")), .var "x"]
  assigned := none
  multiplicity := 1
  references := [⟨"y", .value⟩, ⟨"x", .value⟩]

def graph : Incidence := ⟨[decay, scale]⟩

/-- `y := x / 6` -/
def first : Block where
  kind := .scalar
  entries := [scale]
  slots := [⟨"y", .value⟩]
  solution := some (.binary .div (.var "x") (.lit (.int 6)))

/-- `der(x) := y - x` -/
def second : Block where
  kind := .scalar
  entries := [decay]
  slots := [⟨"x", .derivative⟩]
  solution := some (.binary .sub (.var "y") (.var "x"))

theorem isAffine_triple : IsAffine ⟨"y", .value⟩ (.binary .mul (.lit (.int 3)) (.var "y"))
    ⟨.lit (.int 3), .zero⟩ :=
  .mulRight rfl rfl (.self rfl)
    (Affine.scaledLeft_eq_ok.mpr ⟨Expr.product_one rfl rfl, Expr.product_zero _⟩)

theorem isRoot_scale : IsRoot ⟨"y", .value⟩
    (.binary .mul (.lit (.int 2)) (.binary .mul (.lit (.int 3)) (.var "y"))) (.var "x")
    ⟨.lit (.int 6), .zero⟩ ⟨.zero, .var "x"⟩ (.var "x") (.lit (.int 6)) where
  left := .mulRight rfl rfl isAffine_triple
    (Affine.scaledLeft_eq_ok.mpr ⟨rfl, Expr.product_zero _⟩)
  right := .free rfl
  divisor_eq := Expr.difference_zero _
  nonzero := rfl
  numerator_eq := Expr.difference_zero _

theorem isRoot_decay : IsRoot ⟨"x", .derivative⟩
    (.binary .add (.der (.var "x")) (.var "x")) (.var "y")
    ⟨.one, .var "x"⟩ ⟨.zero, .var "y"⟩ (.binary .sub (.var "y") (.var "x")) .one where
  left := .add rfl (.self rfl) (.free rfl)
    (Affine.sum_eq_ok.mpr ⟨Expr.sum_zero Expr.isNumber_one_zero, Expr.zero_sum _⟩)
  right := .free rfl
  divisor_eq := Expr.difference_zero _
  nonzero := Expr.isNumber_one_zero
  numerator_eq := rfl

theorem quotient_decay : (Expr.binary .sub (.var "y") (.var "x")).quotient .one =
    .binary .sub (.var "y") (.var "x") := if_pos Expr.isNumber_one

end Plan.decaying

def Plan.decaying : Plan where
  modelName := "decaying"
  blocks := [decaying.first, decaying.second]
  issues := []
  incidence := decaying.graph
  matching := Model.decaying.matching decaying.graph none

theorem Model.incidence_decaying :
    Model.decaying.incidence true = .ok Plan.decaying.graph := by cbv

namespace Plan.decaying

theorem pairs_eq : (Model.decaying.matching graph none).assignment.pairs =
    [("eq[0]", ⟨"x", .derivative⟩), ("eq[1]", ⟨"y", .value⟩)] := by cbv

theorem components_eq : graph.components (Model.decaying.matching graph none).assignment =
    .ok [["eq[1]"], ["eq[0]"]] := by cbv

theorem blocks_eq : graph.blocks (Model.decaying.matching graph none).assignment =
    .ok [first, second] := by
  refine (Incidence.blocks_eq_ok (Model.decaying.nodup_ids Model.incidence_decaying)).mpr
    ⟨_, [[(scale, ⟨"y", .value⟩)], [(decay, ⟨"x", .derivative⟩)]], components_eq, ?_, ?_⟩
  · refine .cons (.cons ⟨?_, rfl, ?_⟩ .nil) (.cons (.cons ⟨?_, rfl, ?_⟩ .nil) .nil)
    · simp [graph]
    · simp [pairs_eq]
    · simp [graph]
    · simp [pairs_eq]
  · refine .cons ?_ (.cons ?_ .nil)
    · exact Block.ofMembers_of_solveFor (by decide) rfl isRoot_scale.solveFor_eq
    · exact Block.ofMembers_of_solveFor (by decide) rfl (quotient_decay ▸ isRoot_decay.solveFor_eq)

theorem issues_eq :
    graph.issues (Model.decaying.matching graph none) [first, second] = .ok [] := by cbv

end Plan.decaying

theorem Model.analyze_decaying : Model.decaying.analyze .standard = .ok .decaying :=
  Model.analyze_eq_ok.mpr
    ⟨rfl, rfl, Model.incidence_decaying, rfl, Plan.decaying.blocks_eq, Plan.decaying.issues_eq⟩

theorem decaying_solutions_are_causal : ∃ p before b s,
    Model.decaying.analyze .standard = .ok p ∧ p.blocks = before ++ [b] ∧
      b.slots = [⟨"x", .derivative⟩] ∧ b.solution = some s ∧
      Model.decaying.occurrences "eq[0]" [s] = .ok [⟨"y", .value⟩, ⟨"x", .value⟩] ∧
      ∀ o : Occurrence, o ∈ [⟨"y", .value⟩, ⟨"x", .value⟩] → (∃ c ∈ before, o ∈ c.slots) ∨
        o.kind = .value ∧ o ∉ Model.decaying.slots p.incidence ∧
          ∃ v ∈ Model.decaying.vars, v.isState = true ∧ o.name ∈ v.elementNames := by
  have hread : Model.decaying.occurrences "eq[0]" [.binary .sub (.var "y") (.var "x")] =
      .ok [⟨"y", .value⟩, ⟨"x", .value⟩] := by cbv
  obtain ⟨os, hos, _, _, hearlier⟩ :=
    Model.solutions_are_causal .decaying .standard .decaying Model.analyze_decaying
      [Plan.decaying.first] Plan.decaying.second [] rfl _ rfl
  obtain rfl := Except.ok.inj ((hos "eq[0]").symm.trans hread)
  exact ⟨_, _, _, _, Model.analyze_decaying, rfl, rfl, rfl, hread, hearlier rfl⟩

end Causality
