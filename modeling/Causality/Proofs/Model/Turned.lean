import Causality.Proofs.Equation.Turned
import Causality.Proofs.Model.Redeclared

/-!
# Models turned around

A model is still accepted if the sides of one of its simple equations are exchanged, unless this
brings a scalar that is equated with arrays to the left.
-/

namespace Causality

def Draft.turn (d : Draft) (s : Section) (i : Nat) : Draft :=
  d.withEquations s ((d.equations s).modify i Equation.turn)

/-- The same variables and the same equations, each in one direction or the other. -/
structure Draft.Turns (d d' : Draft) : Prop where
  vars : d'.vars = d.vars
  equations : ∀ s, List.Forall₂ Equation.Turns (d.equations s) (d'.equations s)

/-- One side is a scalar, and the equation relates arrays. -/
def Draft.EquatesScalar (d : Draft) (lhs rhs : Expr) : Prop :=
  d.LeadsWithScalar (.simple lhs rhs) ∨ d.LeadsWithScalar (.simple rhs lhs)

variable {d d' : Draft} {s t : Section} {i : Nat} {e e' : Equation} {lhs rhs : Expr}
  {ls : List Labelled} {expanded : Section → List Labelled}

/-! ### One equation turned around -/

theorem Equation.forall₂_turns_modify (es : List Equation) (i : Nat) :
    List.Forall₂ Equation.Turns es (es.modify i Equation.turn) := by
  have hsame : ∀ es : List Equation, List.Forall₂ Equation.Turns es es :=
    fun es => List.forall₂_same.mpr fun e _ => .same e
  induction es generalizing i with
  | nil =>
    rw [List.modify_nil]
    exact .nil
  | cons e es ih =>
    cases i with
    | zero =>
      rw [List.modify_zero_cons]
      exact .cons e.turns_turn (hsame es)
    | succ i =>
      rw [List.modify_succ_cons]
      exact .cons (.same e) (ih i)

theorem Draft.turns_turn (d : Draft) (s : Section) (i : Nat) : d.Turns (d.turn s i) where
  vars := rfl
  equations t := by
    unfold turn withEquations
    dsimp only
    split_ifs with ht
    · subst ht
      exact Equation.forall₂_turns_modify _ i
    · exact List.forall₂_same.mpr fun e _ => .same e

theorem Draft.equations_turn :
    (d.turn s i).equations s = (d.equations s).modify i Equation.turn := if_pos rfl

theorem Draft.equations_turn_of_ne (h : t ≠ s) : (d.turn s i).equations t = d.equations t :=
  if_neg h

theorem Draft.getElem?_turn (h : (d.equations s)[i]? = some e) :
    ((d.turn s i).equations s)[i]? = some e.turn := by
  rw [equations_turn, List.getElem?_modify, h]
  simp

theorem Draft.turn_turn (d : Draft) (s : Section) (i : Nat) : (d.turn s i).turn s i = d := by
  have hturn : Equation.turn ∘ Equation.turn = id := funext Equation.turn_turn
  have hback : ((d.turn s i).equations s).modify i Equation.turn = d.equations s := by
    rw [equations_turn, List.modify_modify_eq, hturn, List.modify_id]
  have hequations : ((d.turn s i).turn s i).equations = d.equations := by
    funext t
    by_cases ht : t = s
    · subst ht
      rw [equations_turn, hback]
    · rw [equations_turn_of_ne ht, equations_turn_of_ne ht]
  calc (d.turn s i).turn s i
      = { d with equations := ((d.turn s i).turn s i).equations } := rfl
    _ = d := by rw [hequations]

theorem Draft.mem_equations_turn (h : e' ∈ (d.turn s i).equations t) :
    e' ∈ d.equations t ∨ ∃ e, (d.equations s)[i]? = some e ∧ e' = e.turn := by
  by_cases ht : t = s
  · subst ht
    rw [equations_turn, List.mem_iff_getElem?] at h
    obtain ⟨j, hj⟩ := h
    rw [List.getElem?_modify, Option.map_eq_map, Option.map_eq_some_iff] at hj
    obtain ⟨e, he, rfl⟩ := hj
    split_ifs with hij
    · subst hij
      exact .inr ⟨e, he, rfl⟩
    · exact .inl (List.mem_of_getElem? he)
  · rw [equations_turn_of_ne ht] at h
    exact .inl h

/-! ### Acceptance -/

theorem Draft.not_leadsWithScalar_of_mem (h : d.elaborate = .ok expanded)
    (he : e ∈ d.equations s) : ¬ d.LeadsWithScalar e := by
  have hexpanded := (elaborate_eq_ok.mp h).2.2.1 s
  simp only [expandSection, bind_eq_ok, pure_eq_ok, mapM_eq_ok] at hexpanded
  obtain ⟨parts, hparts, _⟩ := hexpanded
  obtain ⟨i, hi⟩ := List.mem_iff_getElem?.mp he
  have hplace : (e, i) ∈ (d.equations s).zipIdx := List.mem_zipIdx_iff_getElem?.mpr hi
  obtain ⟨part, _, hpart⟩ := Forall₂.exists_right hparts hplace
  exact not_leadsWithScalar hpart

namespace Draft.Turns

variable (h : d.Turns d')

include h

theorem exists_expandSection (hleft : ∀ e ∈ d'.equations s, ¬ d'.LeadsWithScalar e)
    (hls : d.expandSection s = .ok ls) :
    ∃ ls', d'.expandSection s = .ok ls' ∧ List.Forall₂ Labelled.Turns ls ls' := by
  simp only [expandSection, bind_eq_ok, pure_eq_ok, mapM_eq_ok] at hls ⊢
  obtain ⟨parts, hparts, rfl⟩ := hls
  have hstep : ∀ (place place' : Equation × Nat) (part : List Labelled),
      place' ∈ (d'.equations s).zipIdx → place.1.Turns place'.1 ∧ place.2 = place'.2 →
      d.expandEquation (s.label ++ "[" ++ toString place.2 ++ "]") place.1 = .ok part →
      ∃ part', d'.expandEquation (s.label ++ "[" ++ toString place'.2 ++ "]") place'.1 = .ok part' ∧
        List.Forall₂ Labelled.Turns part part' := by
    rintro ⟨e, i⟩ ⟨e', _⟩ part hplace ⟨hturn, rfl⟩ hpart
    have he' := List.fst_mem_of_mem_zipIdx hplace
    exact hturn.exists_expandEquation h.vars (hleft e' he') hpart
  obtain ⟨parts', hparts', hturns⟩ :=
    Forall₂.exists_results (Forall₂.zipIdx (h.equations s) 0) hparts hstep
  exact ⟨parts'.flatten, ⟨parts', hparts', rfl⟩, Forall₂.flatten hturns⟩

theorem checkEquation {l l' : Labelled} (hl : l.Turns l') (hok : d.checkEquation l = .ok ()) :
    d'.checkEquation l' = .ok () := by
  rw [Draft.checkEquation_iff, Draft.checkNodes_eq_ok, Draft.checkNodes_eq_ok] at hok ⊢
  obtain ⟨hsubscripts, hderivatives, residuals, hresiduals⟩ := hok
  refine ⟨?_, ?_, ?_⟩
  · intro x hx
    obtain ⟨nodes, hnodes, hall⟩ := hsubscripts x (hl.equation.mem_exprs.mp hx)
    exact ⟨nodes, hnodes, fun n hn => Draft.checkSubscript_congr h.vars (hall n hn)⟩
  · intro x hx
    obtain ⟨nodes, hnodes, hall⟩ := hderivatives x (hl.equation.mem_exprs.mp hx)
    exact ⟨nodes, hnodes, fun n hn => Draft.checkDerivative_congr h.vars (hall n hn)⟩
  · exact hl.equation.exists_residuals hresiduals

theorem exists_elaborate (hleft : ∀ s, ∀ e ∈ d'.equations s, ¬ d'.LeadsWithScalar e)
    (hd : d.elaborate = .ok expanded) : ∃ expanded', d'.elaborate = .ok expanded' ∧
      ∀ s, List.Forall₂ Labelled.Turns (expanded s) (expanded' s) := by
  obtain ⟨hnames, hpositions, hsections, hchecks⟩ := Draft.elaborate_eq_ok.mp hd
  have hturned : ∀ s, ∃ ls', d'.expandSection s = .ok ls' ∧
      List.Forall₂ Labelled.Turns (expanded s) ls' :=
    fun s => h.exists_expandSection (hleft s) (hsections s)
  choose expanded' hsections' hturns using hturned
  refine ⟨expanded', Draft.elaborate_eq_ok.mpr ⟨?_, ?_, hsections', ?_⟩, hturns⟩
  · rw [h.vars]
    exact hnames
  · rw [Draft.states, Draft.withRole, h.vars]
    exact hpositions
  · intro s l' hl'
    obtain ⟨l, hl, hll'⟩ := Forall₂.exists_left (hturns s) hl'
    exact h.checkEquation hll' (hchecks s l hl)

end Draft.Turns

theorem Model.forall₂_expanded {m m' : Model} (h : m.toDraft.Turns m'.toDraft) (s : Section) :
    List.Forall₂ Labelled.Turns (m.expanded s) (m'.expanded s) := by
  have hleft : ∀ s, ∀ e ∈ m'.equations s, ¬ m'.LeadsWithScalar e :=
    fun s e he => Draft.not_leadsWithScalar_of_mem m'.accepted he
  obtain ⟨expanded', hexpanded', hturns⟩ := h.exists_elaborate hleft m.accepted
  rw [Except.ok.inj (m'.accepted.symm.trans hexpanded')]
  exact hturns s

theorem Draft.exists_elaborate_turn (hi : (d.equations s)[i]? = some (.simple lhs rhs))
    (hscalar : ¬ d.EquatesScalar lhs rhs) (hd : ∃ expanded, d.elaborate = .ok expanded) :
    ∃ expanded, (d.turn s i).elaborate = .ok expanded := by
  obtain ⟨expanded, hexpanded⟩ := hd
  have hleft : ∀ t, ∀ e ∈ (d.turn s i).equations t, ¬ (d.turn s i).LeadsWithScalar e := by
    intro t e' he'
    rw [leadsWithScalar_congr (d.turns_turn s i).vars]
    rcases mem_equations_turn he' with he | ⟨e, he, rfl⟩
    · exact not_leadsWithScalar_of_mem hexpanded he
    · obtain rfl := Option.some.inj (hi.symm.trans he)
      exact fun hleads => hscalar (.inr hleads)
  obtain ⟨expanded', hexpanded', _⟩ := (d.turns_turn s i).exists_elaborate hleft hexpanded
  exact ⟨expanded', hexpanded'⟩

/-- Without a scalar that is equated with arrays, both directions are accepted or none is. -/
theorem Draft.elaborate_turn_iff (hi : (d.equations s)[i]? = some (.simple lhs rhs))
    (hscalar : ¬ d.EquatesScalar lhs rhs) : (∃ expanded, d.elaborate = .ok expanded) ↔
      ∃ expanded, (d.turn s i).elaborate = .ok expanded := by
  refine ⟨exists_elaborate_turn hi hscalar, fun hturned => ?_⟩
  rw [← d.turn_turn s i]
  apply exists_elaborate_turn (getElem?_turn hi) _ hturned
  intro hscalar'
  apply hscalar
  unfold EquatesScalar at hscalar' ⊢
  rw [leadsWithScalar_congr (d.turns_turn s i).vars,
    leadsWithScalar_congr (d.turns_turn s i).vars] at hscalar'
  exact Or.symm hscalar'

/-- With such a scalar, at most one direction is accepted. -/
theorem Draft.EquatesScalar.not_both (h : d.EquatesScalar lhs rhs)
    (hi : (d.equations s)[i]? = some (.simple lhs rhs)) :
    ¬ ((∃ expanded, d.elaborate = .ok expanded) ∧
      ∃ expanded, (d.turn s i).elaborate = .ok expanded) := by
  rintro ⟨⟨_, hexpanded⟩, _, hturned⟩
  rcases h with hleads | hleads
  · exact not_leadsWithScalar_of_mem hexpanded (List.mem_of_getElem? hi) hleads
  · have hmem := List.mem_of_getElem? (getElem?_turn hi)
    apply not_leadsWithScalar_of_mem hturned hmem
    rw [leadsWithScalar_congr (d.turns_turn s i).vars]
    exact hleads

end Causality
