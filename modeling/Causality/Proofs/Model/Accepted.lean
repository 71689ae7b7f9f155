import Causality.Model.Basic
import Causality.Proofs.Fallible
import Mathlib

/-!
# Accepted drafts

A draft is accepted if its names and state positions are consistent, every section expands, and
each expanded equation passes its checks.

The small models at the end are evaluated here and by the modules that use them. This unfolds
definitions of the library whose equations are generated in parts of it that have nothing to do with
models, so it is imported as a whole.
-/

namespace Causality

variable {d : Draft} {expanded : Section → List Labelled}

theorem Section.mem_all (s : Section) : s ∈ Section.all := by cases s <;> decide

theorem Draft.expandSections_eq_ok :
    d.expandSections = .ok expanded ↔ ∀ s, d.expandSection s = .ok (expanded s) := by
  simp only [Draft.expandSections, bind_eq_ok, pure_eq_ok]
  constructor
  · rintro ⟨_, hc, _, he, _, hd, _, hi, rfl⟩ s
    cases s with
    | continuous => exact hc
    | event => exact he
    | discrete => exact hd
    | initial => exact hi
  · intro h
    refine ⟨_, h .continuous, _, h .event, _, h .discrete, _, h .initial, ?_⟩
    funext s
    cases s <;> rfl

theorem Draft.elaborate_eq_ok :
    d.elaborate = .ok expanded ↔ checkNames [] d.vars = .ok () ∧ checkPositions d.states = .ok () ∧
      (∀ s, d.expandSection s = .ok (expanded s)) ∧
      ∀ s, ∀ l ∈ expanded s, d.checkEquation l = .ok () := by
  simp only [Draft.elaborate, bind_eq_ok, pure_eq_ok, Draft.expandSections_eq_ok]
  constructor
  · rintro ⟨_, hnames, _, hpositions, expanded', hsections, _, hchecks, rfl⟩
    refine ⟨hnames, hpositions, hsections, fun s => ?_⟩
    exact forM_eq_ok.mp (forM_eq_ok.mp hchecks s s.mem_all)
  · rintro ⟨hnames, hpositions, hsections, hchecks⟩
    refine ⟨(), hnames, (), hpositions, expanded, hsections, (), ?_, rfl⟩
    exact forM_eq_ok.mpr fun s _ => forM_eq_ok.mpr (hchecks s)

theorem Draft.elaborate_of_sections (hnames : checkNames [] d.vars = .ok ())
    (hpositions : checkPositions d.states = .ok ())
    (hsections : ∀ s, d.expandSection s = .ok (expanded s))
    (hchecks : ∀ s, (expanded s).forM d.checkEquation = .ok ()) : d.elaborate = .ok expanded :=
  elaborate_eq_ok.mpr ⟨hnames, hpositions, hsections, fun s => forM_eq_ok.mp (hchecks s)⟩

theorem Model.checkNames_eq_ok (m : Model) : checkNames [] m.vars = .ok () :=
  (Draft.elaborate_eq_ok.mp m.accepted).1

theorem Model.checkPositions_eq_ok (m : Model) : checkPositions m.states = .ok () :=
  (Draft.elaborate_eq_ok.mp m.accepted).2.1

theorem Model.expandSection_eq_ok (m : Model) (s : Section) :
    m.expandSection s = .ok (m.expanded s) :=
  (Draft.elaborate_eq_ok.mp m.accepted).2.2.1 s

theorem Model.checkEquation_eq_ok (m : Model) {s : Section} {l : Labelled}
    (hl : l ∈ m.expanded s) : m.checkEquation l = .ok () :=
  (Draft.elaborate_eq_ok.mp m.accepted).2.2.2 s l hl

/-- The label of the declared equation at that place. -/
def Section.place (s : Section) (i : Nat) : String := s.label ++ "[" ++ toString i ++ "]"

theorem Model.expandEquation_of_mem (m : Model) {s : Section} {l : Labelled}
    (hl : l ∈ m.expanded s) :
    ∃ i e ls, (m.equations s)[i]? = some e ∧ m.expandEquation (s.place i) e = .ok ls ∧ l ∈ ls := by
  have hexpanded := m.expandSection_eq_ok s
  simp only [Draft.expandSection, bind_eq_ok, pure_eq_ok, mapM_eq_ok] at hexpanded
  obtain ⟨parts, hparts, hflatten⟩ := hexpanded
  rw [← hflatten] at hl
  obtain ⟨part, hpart, hl⟩ := List.mem_flatten.mp hl
  obtain ⟨⟨e, i⟩, hei, he⟩ := Forall₂.exists_left hparts hpart
  exact ⟨i, e, part, List.mem_zipIdx_iff_getElem?.mp hei, he, hl⟩

theorem Model.exists_expandEquation (m : Model) {s : Section} {i : Nat} {e : Equation}
    (he : (m.equations s)[i]? = some e) :
    ∃ ls, m.expandEquation (s.place i) e = .ok ls ∧ ∀ l ∈ ls, l ∈ m.expanded s := by
  have hexpanded := m.expandSection_eq_ok s
  simp only [Draft.expandSection, bind_eq_ok, pure_eq_ok, mapM_eq_ok] at hexpanded
  obtain ⟨parts, hparts, hflatten⟩ := hexpanded
  have hei : (e, i) ∈ (m.equations s).zipIdx := List.mem_zipIdx_iff_getElem?.mpr he
  obtain ⟨part, hpart, hls⟩ := Forall₂.exists_right hparts hei
  rw [← hflatten]
  exact ⟨part, hls, fun l hl => List.mem_flatten.mpr ⟨part, hpart, hl⟩⟩

theorem Model.exists_expand (m : Model) {s : Section} {i : Nat} {e : Equation}
    (he : (m.equations s)[i]? = some e) : ∃ ls, e.expand (s.place i) = .ok ls ∧
      ∀ l ∈ ls, ∃ parts, l.equation.split m.vars l.label = .ok parts ∧
        ∀ k ∈ parts, k ∈ m.expanded s := by
  obtain ⟨split, hsplit, hmem⟩ := m.exists_expandEquation he
  simp only [Draft.expandEquation, bind_eq_ok, pure_eq_ok, mapM_eq_ok] at hsplit
  obtain ⟨ls, hls, rounds, hrounds, rfl⟩ := hsplit
  refine ⟨ls, hls, fun l hl => ?_⟩
  obtain ⟨parts, hparts, hl⟩ := Forall₂.exists_right hrounds hl
  exact ⟨parts, hl, fun k hk => hmem k (List.mem_flatten.mpr ⟨parts, hparts, hk⟩)⟩

theorem Model.mem_of_expandEquation (m : Model) {s : Section} {l : Labelled} {i : Nat}
    {e : Equation} {ls : List Labelled} (he : (m.equations s)[i]? = some e)
    (hls : m.expandEquation (s.place i) e = .ok ls) (hl : l ∈ ls) : l ∈ m.expanded s := by
  obtain ⟨part, hpart, hmem⟩ := m.exists_expandEquation he
  obtain rfl := Except.ok.inj (hls.symm.trans hpart)
  exact hmem l hl

/-! ### Small models -/

def Variable.unknown (name : String) (h : name ≠ "") : Variable where
  name := name
  role := .algebraic
  stateIndex := none
  start := none
  shape := none
  description := ""
  unit := ""
  minValue := none
  maxValue := none
  nominal := none
  sound := by simp [Declaration.fault?, Declaration.fault?.indexFault?,
    Declaration.fault?.shapeFault?, h]

/-- The equations `z * z = x`, `x + y = 3` and `x = y`, of which the last two form a loop. -/
def Draft.coupled : Draft where
  name := "coupled"
  vars := [.unknown "x" (by decide), .unknown "y" (by decide), .unknown "z" (by decide)]
  equations
    | .continuous => [.simple (.binary .mul (.var "z") (.var "z")) (.var "x"),
        .simple (.binary .add (.var "x") (.var "y")) (.lit (.int 3)),
        .simple (.var "x") (.var "y")]
    | _ => []
  description := ""

def Draft.coupledEquations (s : Section) : List Labelled :=
  (Draft.coupled.equations s).zipIdx.map fun (e, i) => ⟨s.label ++ "[" ++ toString i ++ "]", e⟩

theorem Draft.elaborate_coupled : Draft.coupled.elaborate = .ok Draft.coupledEquations := by
  apply Draft.elaborate_of_sections
  · cbv
  · cbv
  · intro s
    cases s <;> cbv
  · intro s
    cases s <;> cbv

def Model.coupled : Model where
  toDraft := .coupled
  expanded := Draft.coupledEquations
  accepted := Draft.elaborate_coupled

/-- A variable that is told from an unknown by its role only. -/
def Variable.ofRole (role : Role) (name : String) (h : name ≠ "") : Variable where
  toDeclaration := { Variable.unknown name h with role := role }
  sound := by simp [Variable.unknown, Declaration.fault?, Declaration.fault?.indexFault?,
    Declaration.fault?.shapeFault?, h]

def Variable.pair (name : String) (h : name ≠ "") : Variable where
  toDeclaration := { Variable.unknown name h with shape := some [.int 2] }
  sound := by simp [Variable.unknown, Declaration.fault?, Declaration.fault?.indexFault?,
    Declaration.fault?.shapeFault?, h, Whole.toInt]

-- The small models of other modules are declared with these names.

theorem x_ne_empty : "x" ≠ "" := by decide

theorem y_ne_empty : "y" ≠ "" := by decide

theorem z_ne_empty : "z" ≠ "" := by decide

def Draft.asDeclared (d : Draft) (s : Section) : List Labelled :=
  (d.equations s).zipIdx.map fun (e, i) => ⟨s.label ++ "[" ++ toString i ++ "]", e⟩

/-- The equations `der(x) + x = y` and `2 * (3 * y) = x` of a state `x`. -/
def Draft.decaying : Draft where
  name := "decaying"
  vars := [.ofRole .state "x" (by decide), .unknown "y" (by decide)]
  equations
    | .continuous => [.simple (.binary .add (.der (.var "x")) (.var "x")) (.var "y"),
        .simple (.binary .mul (.lit (.int 2)) (.binary .mul (.lit (.int 3)) (.var "y")))
          (.var "x")]
    | _ => []
  description := ""

theorem Draft.elaborate_decaying :
    Draft.decaying.elaborate = .ok Draft.decaying.asDeclared := by
  apply Draft.elaborate_of_sections
  · cbv
  · cbv
  · intro s
    cases s <;> cbv
  · intro s
    cases s <;> cbv

def Model.decaying : Model where
  toDraft := .decaying
  expanded := Draft.decaying.asDeclared
  accepted := Draft.elaborate_decaying

/-- The equation `p * x = 0` with a parameter `p`. -/
def Draft.scaled : Draft where
  name := "scaled"
  vars := [.ofRole .parameter "p" (by decide), .unknown "x" (by decide)]
  equations
    | .continuous => [.simple (.binary .mul (.var "p") (.var "x")) (.lit (.int 0))]
    | _ => []
  description := ""

theorem Draft.elaborate_scaled : Draft.scaled.elaborate = .ok Draft.scaled.asDeclared := by
  apply Draft.elaborate_of_sections
  · cbv
  · cbv
  · intro s
    cases s <;> cbv
  · intro s
    cases s <;> cbv

def Model.scaled : Model where
  toDraft := .scaled
  expanded := Draft.scaled.asDeclared
  accepted := Draft.elaborate_scaled

end Causality
