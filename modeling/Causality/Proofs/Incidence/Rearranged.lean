import Causality.Proofs.Block.Renaming
import Causality.Proofs.Equation.Labels
import Causality.Proofs.Incidence.Ids
import Causality.Proofs.Incidence.Relabelled
import Mathlib.Logic.Equiv.Basic

/-!
# Incidence of a model in another order

A model can declare its variables in another order, and the equations of each section, too. Each
entry is found again with the id and the position of its new place, and with the same references.
-/

namespace Causality

/-! ### Places -/

/-- The label of an equation at its place, and at the one that `π` moves it to. -/
def Section.Moved (s : Section) (π : Equiv.Perm Nat) (u v : String) : Prop :=
  ∃ i x, u = s.place i ++ x ∧ v = s.place (π i) ++ x

theorem Section.Moved.append {s : Section} {π : Equiv.Perm Nat} {u v : String}
    (h : s.Moved π u v) (y : String) : s.Moved π (u ++ y) (v ++ y) := by
  obtain ⟨i, x, rfl, rfl⟩ := h
  exact ⟨i, x ++ y, String.append_assoc, String.append_assoc⟩

theorem Section.label_injective {s t : Section} (h : s.label = t.label) : s = t := by
  cases s <;> cases t <;> simp_all [Section.label]

theorem Section.notMem_label (s : Section) : '[' ∉ s.label.toList := by
  cases s <;> decide

/-- A place can be read back from the labels below it. -/
theorem Section.place_injective {s t : Section} {i j : Nat} {x y : String}
    (h : s.place i ++ x = t.place j ++ y) : s = t ∧ i = j ∧ x = y := by
  have htext : ∀ (s : Section) (i : Nat) (x : String), (s.place i ++ x).toList =
      s.label.toList ++ '[' :: (i.repr.toList ++ ']' :: x.toList) := by
    intro s i x
    simp [Section.place]
  have hlist := congrArg String.toList h
  rw [htext, htext] at hlist
  obtain ⟨hlabel, htail⟩ := eq_of_mark s.notMem_label t.notMem_label hlist
  obtain rfl := Section.label_injective (String.toList_inj.mp hlabel)
  obtain rfl := eq_of_repr_append (stops_cons (by decide) _) (stops_cons (by decide) _) htail
  rw [List.append_cancel_left_eq, List.cons.injEq] at htail
  exact ⟨rfl, rfl, String.toList_inj.mp htail.2⟩

/-- One function moves the labels of all sections. -/
theorem exists_moved (π : Section → Equiv.Perm Nat) :
    ∃ f : String → String, ∀ s u v, Section.Moved s (π s) u v → f u = v := by
  have hchoice : ∀ u, ∃ w, ∀ s v, Section.Moved s (π s) u v → w = v := by
    intro u
    by_cases hmoved : ∃ s v, Section.Moved s (π s) u v
    · obtain ⟨s, v, i, x, rfl, rfl⟩ := hmoved
      refine ⟨s.place (π s i) ++ x, fun t w hw => ?_⟩
      obtain ⟨j, y, hplace, rfl⟩ := hw
      obtain ⟨rfl, rfl, rfl⟩ := Section.place_injective hplace
      rfl
    · exact ⟨u, fun s v hv => absurd ⟨s, v, hv⟩ hmoved⟩
  choose f hf using hchoice
  exact ⟨f, fun s u v => hf u s v⟩

/-! ### Rows -/

/-- The variables are declared in some order, and the equation at place `i` of a section at the
place `π i`. -/
structure Draft.Reorders (d d' : Draft) (π : Section → Equiv.Perm Nat) : Prop where
  vars : d'.vars.Perm d.vars
  equations : ∀ s i, (d'.equations s)[π s i]? = (d.equations s)[i]?

theorem Draft.Reorders.symm {d d' : Draft} {π : Section → Equiv.Perm Nat}
    (h : d.Reorders d' π) : d'.Reorders d fun s => (π s).symm where
  vars := h.vars.symm
  equations s i := by rw [← h.equations, Equiv.apply_symm_apply]

/-- The place behind the first one is moved as `π` moves the first one, and so on. -/
def shifted (π : Equiv.Perm Nat) : Equiv.Perm Nat where
  toFun
    | 0 => 0
    | i + 1 => π i + 1
  invFun
    | 0 => 0
    | i + 1 => π.symm i + 1
  left_inv i := by cases i <;> simp
  right_inv i := by cases i <;> simp

theorem exists_places {α : Type} {xs ys : List α} (h : ys.Perm xs) :
    ∃ π : Equiv.Perm Nat, ∀ i, ys[π i]? = xs[i]? := by
  induction h with
  | nil => exact ⟨.refl _, fun i => rfl⟩
  | cons x _ ih =>
    obtain ⟨π, hπ⟩ := ih
    refine ⟨shifted π, fun i => ?_⟩
    cases i with
    | zero => rfl
    | succ i => exact hπ i
  | swap x y xs =>
    refine ⟨Equiv.swap 0 1, fun i => ?_⟩
    match i with
    | 0 => rfl
    | 1 => rfl
    | i + 2 =>
      rw [Equiv.swap_apply_of_ne_of_ne (by omega) (by omega)]
      rfl
  | trans _ _ ih₁ ih₂ =>
    obtain ⟨π₁, hπ₁⟩ := ih₁
    obtain ⟨π₂, hπ₂⟩ := ih₂
    exact ⟨π₂.trans π₁, fun i => (hπ₁ (π₂ i)).trans (hπ₂ i)⟩

/-- Every way to permute the variables and the equations of each section is covered. -/
theorem Draft.exists_reorders {d d' : Draft} (hvars : d'.vars.Perm d.vars)
    (hequations : ∀ s, (d'.equations s).Perm (d.equations s)) : ∃ π, d.Reorders d' π := by
  have hplaces : ∀ s, ∃ π : Equiv.Perm Nat, ∀ i, (d'.equations s)[π i]? = (d.equations s)[i]? :=
    fun s => exists_places (hequations s)
  choose π hπ using hplaces
  exact ⟨π, hvars, hπ⟩

variable {m m' : Model} {π : Section → Equiv.Perm Nat} {s : Section} {l : Labelled} {row : Row}
  {rows rows' : List Row} {includeInitial : Bool} {g g' : Incidence} {e : Entry}

namespace Draft.Reorders

variable (h : m.toDraft.Reorders m'.toDraft π)

include h

theorem sameNames : SameNames m.vars m'.vars := m.sameNames h.vars

theorem exists_labelled (hl : l ∈ m.expanded s) : ∃ l' ∈ m'.expanded s,
    l'.equation = l.equation ∧ s.Moved (π s) l.label l'.label := by
  obtain ⟨i, e, ls, he, hls, hl⟩ := m.expandEquation_of_mem hl
  obtain ⟨xs, hxs⟩ := Draft.exists_expandEquation hls
  obtain rfl := Except.ok.inj (hls.symm.trans (hxs m.toDraft _ ⟨rfl, rfl⟩))
  obtain ⟨x, hx, rfl⟩ := List.mem_map.mp hl
  have he' : (m'.equations s)[π s i]? = some e := (h.equations s i).trans he
  refine ⟨x.under (s.place (π s i)), ?_, rfl, i, x.label, rfl, rfl⟩
  exact m'.mem_of_expandEquation he' (hxs m'.toDraft _ h.sameNames) (List.mem_map_of_mem hx)

theorem exists_sectionRow (hrows : m.SectionRows s rows) (hrows' : m'.SectionRows s rows')
    (hrow : row ∈ rows) : ∃ row' ∈ rows', row.SameButId row' ∧ s.Moved (π s) row.id row'.id := by
  obtain ⟨parts, hparts, rfl⟩ := hrows
  obtain ⟨parts', hparts', rfl⟩ := hrows'
  obtain ⟨part, hpart, hrow⟩ := List.mem_flatten.mp hrow
  obtain ⟨l, hl, hlpart⟩ := Forall₂.exists_left hparts hpart
  obtain ⟨l', hl', hequation, hmoved⟩ := h.exists_labelled hl
  obtain ⟨part', hpart', hlpart'⟩ := Forall₂.exists_right hparts' hl'
  obtain ⟨residuals, hresiduals, rfl⟩ := rowsOf_eq_ok.mp hlpart
  obtain ⟨residuals', hresiduals', rfl⟩ := rowsOf_eq_ok.mp hlpart'
  rw [hequation] at hresiduals'
  obtain rfl := Except.ok.inj (hresiduals.symm.trans hresiduals')
  obtain ⟨r, hr, rfl⟩ := List.mem_map.mp hrow
  refine ⟨_, List.mem_flatten.mpr ⟨_, hpart', List.mem_map_of_mem hr⟩, ?_, ?_⟩
  · simp [Row.SameButId, hequation]
  · dsimp only
    split_ifs
    · exact hmoved
    · rw [String.append_assoc, String.append_assoc]
      exact hmoved.append _

theorem exists_row (hrows : m.rows includeInitial = .ok rows)
    (hrows' : m'.rows includeInitial = .ok rows') (hrow : row ∈ rows) :
    ∃ row' ∈ rows', row.SameButId row' ∧ row.origin.Moved (π row.origin) row.id row'.id := by
  obtain ⟨parts, hparts, rfl⟩ := Model.rows_eq_ok.mp hrows
  obtain ⟨parts', hparts', rfl⟩ := Model.rows_eq_ok.mp hrows'
  obtain ⟨part, hpart, hrow⟩ := List.mem_flatten.mp hrow
  obtain ⟨s, hs, hspart⟩ := Forall₂.exists_left hparts hpart
  obtain ⟨part', hpart', hspart'⟩ := Forall₂.exists_right hparts' hs
  obtain ⟨row', hrow', hsame, hmoved⟩ := h.exists_sectionRow hspart hspart' hrow
  rw [hspart.origin row hrow]
  exact ⟨row', List.mem_flatten.mpr ⟨part', hpart', hrow'⟩, hsame, hmoved⟩

end Draft.Reorders

/-! ### Entries -/

structure Entry.Moved (π : Section → Equiv.Perm Nat) (e e' : Entry) : Prop where
  id : e.origin.Moved (π e.origin) e.id e'.id
  same : e' = { e with id := e'.id, position := e'.position }

theorem Draft.Reorders.exists_entry (h : m.toDraft.Reorders m'.toDraft π)
    (hg : m.incidence includeInitial = .ok g) (hg' : m'.incidence includeInitial = .ok g')
    (he : e ∈ g.entries) : ∃ e' ∈ g'.entries, e.Moved π e' := by
  obtain ⟨rows, hrows, hfills⟩ := Model.incidence_eq_ok.mp hg
  obtain ⟨rows', hrows', hfills'⟩ := Model.incidence_eq_ok.mp hg'
  obtain ⟨⟨row, k⟩, hplace, references, hreferences, rfl⟩ := Forall₂.exists_left hfills he
  obtain ⟨row', hrow', hsame, hmoved⟩ :=
    h.exists_row hrows hrows' (List.fst_mem_of_mem_zipIdx hplace)
  obtain ⟨k', hk'⟩ := List.mem_iff_getElem?.mp hrow'
  obtain ⟨e', he', references', hreferences', rfl⟩ :=
    Forall₂.exists_right hfills' (List.mem_zipIdx_iff_getElem?.mpr hk' : (row', k') ∈ rows'.zipIdx)
  have hresidual : row'.residual = row.residual := by rw [hsame]
  have hread : m'.occurrences row'.id row'.residual.exprs = .ok references := by
    rw [hresidual]
    exact Model.occurrences_congr h.sameNames hreferences
  obtain rfl := Except.ok.inj (hread.symm.trans hreferences')
  refine ⟨_, he', hmoved, ?_⟩
  unfold Row.entry
  rw [hsame]

def Incidence.placesOf (g' : Incidence) (f : String → String) (u : String) : Nat := g'.placeOf (f u)

theorem Entry.Moved.rename_eq {f : String → String} {e' : Entry} (h : e.Moved π e')
    (hf : ∀ s u v, Section.Moved s (π s) u v → f u = v) (hids' : g'.ids.Nodup)
    (he' : e' ∈ g'.entries) : e.rename f (g'.placesOf f) = e' := by
  have hid : f e.id = e'.id := hf _ _ _ h.id
  rw [Entry.rename, Incidence.placesOf, hid, Incidence.placeOf_of_mem hids' he']
  exact h.same.symm

namespace Draft.Reorders

variable (h : m.toDraft.Reorders m'.toDraft π) (hg : m.incidence includeInitial = .ok g)
  (hg' : m'.incidence includeInitial = .ok g')

include h hg hg'

theorem injective {f : String → String} (hf : ∀ s u v, Section.Moved s (π s) u v → f u = v) :
    ∀ u ∈ g.ids, ∀ v ∈ g.ids, f u = f v → u = v := by
  have hmoved : ∀ u ∈ g.ids, ∃ s, Section.Moved s (π s) u (f u) := by
    intro u hu
    obtain ⟨e, he, rfl⟩ := Incidence.mem_ids.mp hu
    obtain ⟨e', _, hee'⟩ := h.exists_entry hg hg' he
    rw [hf _ _ _ hee'.id]
    exact ⟨_, hee'.id⟩
  intro u hu v hv huv
  obtain ⟨s, i, x, rfl, hs⟩ := hmoved u hu
  obtain ⟨t, j, y, rfl, ht⟩ := hmoved v hv
  obtain ⟨rfl, hij, rfl⟩ := Section.place_injective (hs.symm.trans (huv.trans ht))
  rw [(π s).injective hij]

theorem map_rename_subset {f : String → String}
    (hf : ∀ s u v, Section.Moved s (π s) u v → f u = v) :
    g.entries.map (Entry.rename f (g'.placesOf f)) ⊆ g'.entries := by
  intro x hx
  obtain ⟨e, he, rfl⟩ := List.mem_map.mp hx
  obtain ⟨e', he', hee'⟩ := h.exists_entry hg hg' he
  rwa [hee'.rename_eq hf (m'.nodup_ids hg') he']

theorem nodup_map_rename {f : String → String}
    (hf : ∀ s u v, Section.Moved s (π s) u v → f u = v) :
    (g.entries.map (Entry.rename f (g'.placesOf f))).Nodup := by
  have hids : ((g.entries.map (Entry.rename f (g'.placesOf f))).map (·.id)).Nodup := by
    have hmap := (m.nodup_ids hg).map_on (h.injective hg hg' hf)
    rw [Incidence.ids, List.map_map] at hmap
    rw [List.map_map]
    exact hmap
  exact List.Nodup.of_map _ hids

theorem length_le : g.entries.length ≤ g'.entries.length := by
  obtain ⟨f, hf⟩ := exists_moved π
  have hle := ((h.nodup_map_rename hg hg' hf).subperm (h.map_rename_subset hg hg' hf)).length_le
  rwa [List.length_map] at hle

/-- The entries are the same, each under the id and at the position of its new place. -/
theorem exists_renames : ∃ f, g.Renames g' f (g'.placesOf f) ∧
    ∀ e ∈ g.entries, e.Moved π (e.rename f (g'.placesOf f)) := by
  obtain ⟨f, hf⟩ := exists_moved π
  refine ⟨f, ⟨?_, h.injective hg hg' hf⟩, ?_⟩
  · have hsubperm := (h.nodup_map_rename hg hg' hf).subperm (h.map_rename_subset hg hg' hf)
    apply (hsubperm.perm_of_length_le ?_).symm
    rw [List.length_map]
    exact h.symm.length_le hg' hg
  · intro e he
    obtain ⟨e', he', hee'⟩ := h.exists_entry hg hg' he
    rwa [hee'.rename_eq hf (m'.nodup_ids hg') he']

end Draft.Reorders

end Causality
