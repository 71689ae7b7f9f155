import Causality.Proofs.Incidence.Entries
import Causality.Proofs.Label

/-!
# Ids of entries

The entries of an incidence have different ids, and their positions count them. Below each step of
the expansion (the rounds of a loop, the places of a body, the elements of an array, the residuals
of a choice) labels are told apart by a number of their own.
-/

namespace Causality

def labels (ls : List Labelled) : List String := ls.map (·.label)

theorem labels_append (ls ls' : List Labelled) : labels (ls ++ ls') = labels ls ++ labels ls' :=
  List.map_append

theorem labels_flatten (parts : List (List Labelled)) :
    labels parts.flatten = (parts.map labels).flatten := List.map_flatten

theorem nodup_values (start stop : Int) {step : Int} (hstep : step ≠ 0) :
    (Progression.upTo start stop step).values.Nodup := by
  refine List.Nodup.map_on ?_ List.nodup_range
  intro k _ l _ h
  have hmul : (k : Int) * step = l * step := by
    change start + k * step = start + l * step at h
    omega
  exact_mod_cast Int.eq_of_mul_eq_mul_right hstep hmul

mutual

theorem Equation.spread_expandUnder (e : Equation) (σ : Substitution) (label : String)
    (ls : List Labelled) (h : e.expandUnder σ label = .ok ls) : Spread label (labels ls) := by
  match e, h with
  | .simple lhs rhs, h =>
    simp only [Equation.expandUnder, bind_eq_ok, pure_eq_ok] at h
    obtain ⟨_, _, _, _, rfl⟩ := h
    exact .single label
  | .loop index start stop step body, h =>
    rw [Equation.expandUnder] at h
    split_ifs at h with hstep
    simp only [bind_eq_ok, pure_eq_ok, Progression.mapM_eq, mapM_eq_ok] at h
    obtain ⟨rounds, hrounds, rfl⟩ := h
    have hparts : List.Forall₂ Spread
        ((Progression.upTo start stop step).values.map fun i =>
          label ++ "[" ++ index ++ "=" ++ toString i ++ "]") (rounds.map labels) := by
      rw [List.forall₂_map_left_iff, List.forall₂_map_right_iff]
      refine hrounds.imp fun i ls hi => ?_
      obtain ⟨_, hlabel, hls⟩ := hi
      obtain ⟨_, rfl⟩ := roundLabel_eq_ok.mp hlabel
      obtain ⟨parts, heq, hparts⟩ := Equation.spread_expandAll body _ _ 0 ls hls
      rw [heq]
      exact (spread_numbered (by decide) rfl (List.nodup_range' 1)).flatten hparts
    have hrange := spread_bracketed label (index ++ "=") (nodup_values start stop hstep)
    simp only [← String.append_assoc] at hrange
    rw [labels_flatten]
    exact hrange.flatten hparts
  | .choice kind branches none, h =>
    simp only [Equation.expandUnder, bind_eq_ok, pure_eq_ok] at h
    obtain ⟨_, _, rfl⟩ := h
    exact .single label
  | .choice kind branches (some otherwise), h =>
    simp only [Equation.expandUnder, bind_eq_ok, pure_eq_ok] at h
    obtain ⟨_, _, _, _, rfl⟩ := h
    exact .single label
termination_by structural e

theorem Equation.spread_expandAll (es : List Equation) (σ : Substitution) (label : String) (k : Nat)
    (ls : List Labelled) (h : Equation.expandAll σ label k es = .ok ls) :
    ∃ parts, labels ls = parts.flatten ∧ List.Forall₂ Spread
      ((List.range' k es.length).map fun k => label ++ "." ++ toString k) parts := by
  match es, h with
  | [], h =>
    simp only [Equation.expandAll, Except.ok.injEq] at h
    subst h
    exact ⟨[], rfl, .nil⟩
  | e :: rest, h =>
    simp only [Equation.expandAll, bind_eq_ok, pure_eq_ok] at h
    obtain ⟨first, hfirst, others, hothers, rfl⟩ := h
    obtain ⟨parts, heq, hparts⟩ := Equation.spread_expandAll rest σ label (k + 1) others hothers
    refine ⟨labels first :: parts, by rw [labels_append, heq, List.flatten_cons], ?_⟩
    rw [List.length_cons, List.range'_succ, List.map_cons]
    exact .cons (Equation.spread_expandUnder e σ _ first hfirst) hparts
termination_by structural es

end

/-! ### Splitting -/

theorem spread_splitSimple {vars : List Variable} {label : String} {lhs rhs : Expr}
    {ls : List Labelled} (h : splitSimple vars label lhs rhs = .ok ls) :
    Spread label (labels ls) := by
  unfold splitSimple at h
  split at h
  · rw [Except.ok.injEq] at h
    exact h ▸ .single label
  · dsimp only at h
    split_ifs at h
    split at h
    · cases h
    · next shape _ _ _ _ _ =>
      have hrows := mapM_eq_ok.mp h
      have hlabels : labels ls = (rowMajor ((shapeExtents shape).map Int.toNat)).map
          (elementName label) := by
        refine (Forall₂.map_eq (hrows.imp fun indices l hl => ?_)).symm
        simp only [bind_eq_ok, pure_eq_ok] at hl
        obtain ⟨_, _, _, _, rfl⟩ := hl
        rfl
      rw [hlabels]
      exact spread_elements label _

theorem Equation.spread_split {vars : List Variable} {label : String} {e : Equation}
    {ls : List Labelled} (h : e.split vars label = .ok ls) : Spread label (labels ls) := by
  match e, h with
  | .simple lhs rhs, h => exact spread_splitSimple h
  | .loop index start stop step body, h =>
    simp only [Equation.split, Except.ok.injEq] at h
    exact h ▸ .single label
  | .choice kind branches none, h =>
    simp only [Equation.split, bind_eq_ok, pure_eq_ok] at h
    obtain ⟨_, _, rfl⟩ := h
    exact .single label
  | .choice kind branches (some otherwise), h =>
    rw [Equation.split] at h
    split_ifs at h
    · rw [Except.ok.injEq] at h
      exact h ▸ .single label
    · simp only [bind_eq_ok, pure_eq_ok] at h
      obtain ⟨_, _, _, _, rfl⟩ := h
      exact .single label

/-! ### Sections -/

variable {d : Draft} {s : Section} {ls : List Labelled}

theorem Draft.spread_expandEquation {label : String} {e : Equation}
    (h : d.expandEquation label e = .ok ls) : Spread label (labels ls) := by
  simp only [Draft.expandEquation, bind_eq_ok, pure_eq_ok, mapM_eq_ok] at h
  obtain ⟨expanded, hexpanded, rounds, hrounds, rfl⟩ := h
  rw [labels_flatten]
  refine (Equation.spread_expandUnder e _ label expanded hexpanded).flatten ?_
  rw [labels, List.forall₂_map_left_iff, List.forall₂_map_right_iff]
  exact hrounds.imp fun l ls hl => Equation.spread_split hl

theorem Draft.spread_expandSection (h : d.expandSection s = .ok ls) :
    Spread s.label (labels ls) := by
  simp only [Draft.expandSection, bind_eq_ok, pure_eq_ok, mapM_eq_ok] at h
  obtain ⟨parts, hparts, rfl⟩ := h
  have hnodup : ((d.equations s).zipIdx.map fun e => (e.2 : Int)).Nodup := by
    have hmap : ((d.equations s).zipIdx.map fun e => (e.2 : Int)) =
        (List.range' 0 (d.equations s).length).map Int.ofNat := by
      rw [← List.zipIdx_map_snd 0 (d.equations s), List.map_map]
      rfl
    rw [hmap]
    exact (List.nodup_range' 1).map fun _ _ => Int.ofNat.inj
  rw [labels_flatten]
  refine (spread_bracketed s.label "" hnodup).flatten ?_
  rw [List.map_map, List.forall₂_map_left_iff, List.forall₂_map_right_iff]
  refine hparts.imp fun e ls hls => ?_
  have hspread := Draft.spread_expandEquation hls
  have htext : s.label ++ "[" ++ "" ++ toString (e.2 : Int) ++ "]" =
      s.label ++ "[" ++ toString e.2 ++ "]" := by
    rw [String.append_empty]
    rfl
  rw [Function.comp_apply, htext]
  exact hspread

/-! ### Residuals -/

theorem spread_rowsOf {l : Labelled} {rows : List Row} (h : Model.rowsOf s l = .ok rows) :
    Spread l.label (rows.map (·.id)) := by
  obtain ⟨residuals, _, rfl⟩ := rowsOf_eq_ok.mp h
  rw [List.map_map]
  by_cases hone : residuals.length = 1
  · obtain ⟨r, rfl⟩ := List.length_eq_one_iff.mp hone
    exact .single l.label
  · have hids : (residuals.zipIdx.map fun r => l.label ++ "#" ++ toString r.2) =
        (List.range' 0 residuals.length).map fun k => l.label ++ "#" ++ toString k := by
      rw [← List.zipIdx_map_snd 0 residuals, List.map_map]
      rfl
    simp only [Function.comp_def, if_neg hone, hids]
    exact spread_numbered (by decide) rfl (List.nodup_range' 1)

theorem spread_sections (includeInitial : Bool) :
    Spread "" ((Model.solvedSections includeInitial).map Section.label) := by
  refine spread_map (fun s _ => ?_) (by cases includeInitial <;> decide) ?_
  · cases s <;> exact ⟨_, _, by decide, rfl⟩
  · intro s hs t ht x y _ _ h
    cases s <;> cases t <;>
      simp_all [Section.label, Model.solvedSections]

variable {m : Model} {includeInitial : Bool}

theorem Model.SectionRows.spread {rows : List Row} (h : m.SectionRows s rows) :
    Spread s.label (rows.map (·.id)) := by
  obtain ⟨parts, hparts, rfl⟩ := h
  rw [List.map_flatten]
  refine (Draft.spread_expandSection (m.expandSection_eq_ok s)).flatten ?_
  rw [labels, List.forall₂_map_left_iff, List.forall₂_map_right_iff]
  exact hparts.imp fun l rs hl => spread_rowsOf hl

theorem Model.spread_rows {rows : List Row} (h : m.rows includeInitial = .ok rows) :
    Spread "" (rows.map (·.id)) := by
  obtain ⟨parts, hparts, rfl⟩ := Model.rows_eq_ok.mp h
  rw [List.map_flatten]
  refine (spread_sections includeInitial).flatten ?_
  rw [List.forall₂_map_left_iff, List.forall₂_map_right_iff]
  exact hparts.imp fun s rs hs => hs.spread

/-! ### Entries -/

variable {g : Incidence}

theorem Model.ids_eq_of_incidence (h : m.incidence includeInitial = .ok g) :
    ∃ rows, m.rows includeInitial = .ok rows ∧ g.ids = rows.map (·.id) := by
  obtain ⟨rows, hrows, hentries⟩ := Model.incidence_eq_ok.mp h
  refine ⟨rows, hrows, ?_⟩
  have hids := Forall₂.map_eq (f := fun place : Row × Nat => place.1.id) (g := Entry.id)
    (hentries.imp fun place e he => by obtain ⟨_, _, rfl⟩ := he; rfl)
  rw [Incidence.ids, ← hids]
  conv_rhs => rw [← List.zipIdx_map_fst 0 rows, List.map_map]
  rfl

theorem Model.nodup_ids (h : m.incidence includeInitial = .ok g) : g.ids.Nodup := by
  obtain ⟨rows, hrows, hids⟩ := Model.ids_eq_of_incidence h
  rw [hids]
  exact (Model.spread_rows hrows).apart.imp Apart.ne

theorem Model.positions_eq (h : m.incidence includeInitial = .ok g) :
    g.entries.map (·.position) = List.range g.entries.length := by
  obtain ⟨rows, _, hentries⟩ := Model.incidence_eq_ok.mp h
  have hpositions := Forall₂.map_eq (f := fun place : Row × Nat => place.2) (g := Entry.position)
    (hentries.imp fun place e he => by obtain ⟨_, _, rfl⟩ := he; rfl)
  rw [← hpositions, List.zipIdx_map_snd, ← hentries.length_eq, List.length_zipIdx,
    List.range_eq_range']

end Causality
