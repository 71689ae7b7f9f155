import Causality.Proofs.Label
import Causality.Proofs.Model.Accepted
import Mathlib.Data.List.Find
import Mathlib.Data.List.Pairwise

/-!
# Names of variables

In an accepted model no two variables share a declared name or a scalar name. The check looks for
a scalar that is named like an element of an array; the elements of two arrays differ anyway, since
a name is read back from an element. So a name means the same in whichever order the variables are
declared.
-/

namespace Causality

namespace Variable

variable {u v : Variable}

theorem elementNames_of_scalar (h : v.extents = none) : v.elementNames = [v.name] := by
  have hshape : v.shape = none := by simpa [extents] using h
  simp [elementNames, isArray, hshape]

theorem elementNames_of_array {extents : List Nat} (h : v.extents = some extents) :
    v.elementNames = (rowMajor extents).map (elementName v.name) := by
  have harray : v.isArray = true := by
    rw [isArray, Option.isSome_iff_exists]
    obtain ⟨shape, hshape, _⟩ := Option.map_eq_some_iff.mp h
    exact ⟨shape, hshape⟩
  simp [elementNames, elementIndices, harray, h]

theorem isArray_iff : v.isArray = true ↔ ∃ extents, v.extents = some extents := by
  rw [isArray, Variable.extents, Option.isSome_iff_exists]
  constructor
  · rintro ⟨shape, h⟩
    exact ⟨_, by rw [h]; rfl⟩
  · rintro ⟨extents, h⟩
    obtain ⟨shape, hshape, _⟩ := Option.map_eq_some_iff.mp h
    exact ⟨shape, hshape⟩

theorem nodup_elementNames (v : Variable) : v.elementNames.Nodup := by
  cases h : v.extents with
  | none =>
    rw [elementNames_of_scalar h]
    exact List.nodup_singleton _
  | some extents =>
    rw [elementNames_of_array h]
    exact (spread_elements v.name extents).apart.imp Apart.ne

theorem disjoint_of_arrays {is js : List Nat} (hu : u.extents = some is)
    (hv : v.extents = some js) (hne : u.name ≠ v.name) :
    u.elementNames.Disjoint v.elementNames := by
  rw [elementNames_of_array hu, elementNames_of_array hv]
  intro element hu hv
  obtain ⟨_, _, rfl⟩ := List.mem_map.mp hu
  obtain ⟨_, _, h⟩ := List.mem_map.mp hv
  exact hne (elementName_injective h).1.symm

end Variable

/-! ### The first clash -/

theorem rowMajorLE_total (is js : List Int) :
    rowMajorLE is js = true ∨ rowMajorLE js is = true := by
  induction is generalizing js with
  | nil => simp [rowMajorLE]
  | cons i is ih =>
    cases js with
    | nil => simp [rowMajorLE]
    | cons j js =>
      simp only [rowMajorLE, Bool.or_eq_true, Bool.and_eq_true, decide_eq_true_eq]
      rcases Int.lt_trichotomy i j with h | h | h
      · exact Or.inl (Or.inl h)
      · rcases ih js with hle | hle
        · exact Or.inl (Or.inr ⟨h, hle⟩)
        · exact Or.inr (Or.inr ⟨h.symm, hle⟩)
      · exact Or.inr (Or.inl h)

theorem rowMajorLE_trans {is js ks : List Int} (hlen : is.length = js.length)
    (hlen' : js.length = ks.length) (h : rowMajorLE is js = true)
    (h' : rowMajorLE js ks = true) : rowMajorLE is ks = true := by
  induction is generalizing js ks with
  | nil => simp [rowMajorLE]
  | cons i is ih =>
    cases js with
    | nil => simp at hlen
    | cons j js =>
      cases ks with
      | nil => simp at hlen'
      | cons k ks =>
        simp only [rowMajorLE, Bool.or_eq_true, Bool.and_eq_true, decide_eq_true_eq] at h h' ⊢
        rcases h with h | ⟨rfl, h⟩
        · rcases h' with h' | ⟨rfl, _⟩
          · exact Or.inl (Int.lt_trans h h')
          · exact Or.inl h
        · rcases h' with h' | ⟨rfl, h'⟩
          · exact Or.inl h'
          · exact Or.inr ⟨rfl, ih (Nat.succ.inj hlen) (Nat.succ.inj hlen') h h'⟩

theorem exists_first {n : Nat} {iss : List (List Int)} (hne : iss ≠ [])
    (hlen : ∀ is ∈ iss, is.length = n) :
    ∃ is ∈ iss, ∀ js ∈ iss, rowMajorLE is js = true := by
  induction iss with
  | nil => exact absurd rfl hne
  | cons is iss ih =>
    by_cases hnil : iss = []
    · refine ⟨is, List.mem_cons_self, fun js hjs => ?_⟩
      rw [hnil, List.mem_singleton] at hjs
      rw [hjs]
      exact (rowMajorLE_total is is).elim id id
    · obtain ⟨js, hjs, hmin⟩ := ih hnil fun ks hks => hlen ks (List.mem_cons_of_mem _ hks)
      have hisn := hlen is List.mem_cons_self
      have hjsn := hlen js (List.mem_cons_of_mem _ hjs)
      rcases rowMajorLE_total is js with h | h
      · refine ⟨is, List.mem_cons_self, fun ks hks => ?_⟩
        rcases List.mem_cons.mp hks with rfl | hks
        · exact (rowMajorLE_total ks ks).elim id id
        · have hksn := hlen ks (List.mem_cons_of_mem _ hks)
          exact rowMajorLE_trans (by omega) (by omega) h (hmin ks hks)
      · refine ⟨js, List.mem_cons_of_mem _ hjs, fun ks hks => ?_⟩
        rcases List.mem_cons.mp hks with rfl | hks
        · exact h
        · exact hmin ks hks

theorem length_of_mem_rowMajor {extents : List Nat} {indices : List Int}
    (h : indices ∈ rowMajor extents) : indices.length = extents.length := by
  induction extents generalizing indices with
  | nil => rw [List.mem_singleton.mp h]; rfl
  | cons extent extents ih =>
    simp only [rowMajor, List.mem_flatMap, List.mem_map] at h
    obtain ⟨_, _, is, his, rfl⟩ := h
    rw [List.length_cons, List.length_cons, ih his]

theorem disjoint_of_clash?_eq_none {earlier : List Variable} {u v : Variable}
    (h : clash? earlier v = none) (hu : u ∈ earlier) (hne : u.name ≠ v.name) :
    u.elementNames.Disjoint v.elementNames := by
  unfold clash? at h
  split at h
  · next hv =>
    rw [Variable.elementNames_of_scalar hv]
    rw [Option.map_eq_none_iff, ownerOf?, List.find?_eq_none] at h
    intro element hmem heq
    rw [List.mem_singleton.mp heq] at hmem
    exact h u hu (Variable.covers_iff.mpr hmem)
  · next extents hv =>
    cases hus : u.extents with
    | some is => exact Variable.disjoint_of_arrays hus hv hne
    | none =>
      rw [Variable.elementNames_of_scalar hus, Variable.elementNames_of_array hv,
        List.singleton_disjoint]
      intro hmem
      obtain ⟨indices, hindices, hname⟩ := List.mem_map.mp hmem
      rw [Option.map_eq_none_iff, List.find?_eq_none] at h
      have hnot : u.isArray = false := by
        rw [Bool.eq_false_iff, Ne, Variable.isArray_iff, hus]
        rintro ⟨_, h⟩
        cases h
      let named := earlier.filterMap fun u =>
        if u.isArray then none
        else (subscriptsOf? v.name extents u.name).map fun indices => (indices, u)
      have hnamed : ∀ e ∈ named, e.1.length = extents.length := by
        intro e he
        obtain ⟨w, _, hw⟩ := List.mem_filterMap.mp he
        split_ifs at hw
        obtain ⟨ks, hks, rfl⟩ := Option.map_eq_some_iff.mp hw
        exact length_of_mem_rowMajor (subscriptsOf?_eq_some.mp hks).1
      have hu' : (indices, u) ∈ named := by
        refine List.mem_filterMap.mpr ⟨u, hu, ?_⟩
        simp [hnot, subscriptsOf?_eq_some.mpr ⟨hindices, hname⟩]
      obtain ⟨is, his, hmin⟩ := exists_first (List.ne_nil_of_mem (List.mem_map_of_mem hu'))
        (List.forall_mem_map.mpr hnamed)
      obtain ⟨e, he, rfl⟩ := List.mem_map.mp his
      refine h e he (List.all_eq_true.mpr fun e' he' => ?_)
      exact hmin e'.1 (List.mem_map_of_mem he')

/-! ### All names -/

/-- Neither a declared name nor a scalar name of `v` is one of `u`. -/
structure Variable.Distinct (u v : Variable) : Prop where
  name : u.name ≠ v.name
  elements : u.elementNames.Disjoint v.elementNames

theorem distinct_of_checkNames {earlier vars : List Variable}
    (h : checkNames earlier vars = .ok ()) :
    (∀ u ∈ earlier, ∀ v ∈ vars, u.Distinct v) ∧ vars.Pairwise Variable.Distinct := by
  induction vars generalizing earlier with
  | nil => exact ⟨fun _ _ _ hv => (by cases hv), .nil⟩
  | cons v vars ih =>
    rw [checkNames] at h
    split_ifs at h with hdeclared
    simp only [bind_eq_ok] at h
    obtain ⟨_, _, h⟩ := h
    split at h
    · cases h
    · next hclash =>
      obtain ⟨hbefore, hafter⟩ := ih h
      have hv : ∀ u ∈ earlier, u.Distinct v := by
        intro u hu
        have hne : u.name ≠ v.name := by
          intro heq
          refine hdeclared ?_
          rw [declaredAs?, List.find?_isSome]
          exact ⟨u, hu, by simpa using heq⟩
        exact ⟨hne, disjoint_of_clash?_eq_none hclash hu hne⟩
      constructor
      · intro u hu w hw
        rcases List.mem_cons.mp hw with rfl | hw
        · exact hv u hu
        · exact hbefore u (List.mem_append_left _ hu) w hw
      · rw [List.pairwise_cons]
        exact ⟨fun w hw => hbefore v (by simp) w hw, hafter⟩

theorem Model.pairwise_distinct (m : Model) : m.vars.Pairwise Variable.Distinct :=
  (distinct_of_checkNames m.checkNames_eq_ok).2

theorem Model.nodup_elementNames (m : Model) : m.elementNames.Nodup := by
  rw [Draft.elementNames, List.nodup_flatMap]
  exact ⟨fun v _ => v.nodup_elementNames, m.pairwise_distinct.imp fun h => h.elements⟩

/-! ### Meaning of names -/

/-- Both lists of variables give every name the same meaning. -/
structure SameNames (vars vars' : List Variable) : Prop where
  declared : declaredAs? vars' = declaredAs? vars
  owner : ownerOf? vars' = ownerOf? vars

theorem SameNames.of_eq {vars vars' : List Variable} (h : vars' = vars) : SameNames vars vars' := by
  subst h
  exact ⟨rfl, rfl⟩

theorem Model.distinct (m : Model) {u v : Variable} (hu : u ∈ m.vars) (hv : v ∈ m.vars)
    (hne : u ≠ v) : u.Distinct v := by
  have : Std.Symm Variable.Distinct :=
    ⟨fun u v h => ⟨h.name.symm, List.disjoint_symm h.elements⟩⟩
  exact m.pairwise_distinct.forall hu hv hne

theorem Model.sameNames (m : Model) {vars : List Variable} (h : vars.Perm m.vars) :
    SameNames m.vars vars where
  declared := by
    funext name
    refine (List.find?_eq_find?_of_perm h.symm ?_).symm
    intro u hu v hv
    by_contra hne
    apply (m.distinct hu.1 hv.1 hne).name
    rw [of_decide_eq_true hu.2, of_decide_eq_true hv.2]
  owner := by
    funext element
    refine (List.find?_eq_find?_of_perm h.symm ?_).symm
    intro u hu v hv
    by_contra hne
    exact (m.distinct hu.1 hv.1 hne).elements (Variable.covers_iff.mp hu.2)
      (Variable.covers_iff.mp hv.2)

end Causality
