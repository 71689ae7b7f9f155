import Causality.Proofs.Incidence.References

/-!
# Unknowns that are referenced and unknowns that are matched

Equations are matched with slots only. Every unknown that an entry references has a slot, with one
exception: the value of a state is given during a simulation, and only initial equations make it a
slot. A slot of a state is there because an entry references the state; the other unknowns have one
slot each, whether they are referenced or not.
-/

namespace Causality

variable {m : Model} {g : Incidence} {v : Variable} {e : Entry} {o slot : Occurrence}
  {element : String} {includeInitial : Bool}

/-! ### Slots of a name -/

theorem Incidence.differentiates_iff :
    g.differentiates element = true ↔ ∃ e ∈ g.entries, ⟨element, .derivative⟩ ∈ e.references := by
  simp only [differentiates, List.any_eq_true, List.contains_iff_mem]

theorem Incidence.constrains_iff : g.constrains element = true ↔
    ∃ e ∈ g.entries, e.origin = .initial ∧ ∃ o ∈ e.references, o.name = element := by
  simp only [constrains, List.any_eq_true, Bool.and_eq_true, decide_eq_true_eq]

theorem Variable.isKnown_of_isState (h : v.isState = true) : v.isKnown = false := by
  have hrole : v.role = .state := by simpa [isState] using h
  rw [isKnown, hrole]
  rfl

theorem Variable.mem_slots : slot ∈ v.slots g ↔
    v.isKnown = false ∧ slot.name ∈ v.elementNames ∧ slot ∈ v.elementSlots g slot.name := by
  rw [slots]
  split_ifs with hknown
  · simp [hknown]
  · rw [List.mem_flatMap]
    constructor
    · rintro ⟨element, helement, hslot⟩
      obtain rfl := name_of_mem_elementSlots hslot
      exact ⟨Bool.eq_false_iff.mpr hknown, helement, hslot⟩
    · rintro ⟨_, helement, hslot⟩
      exact ⟨slot.name, helement, hslot⟩

theorem Model.mem_slots_iff (hv : v ∈ m.vars) (hname : slot.name ∈ v.elementNames) :
    slot ∈ m.slots g ↔ v.isKnown = false ∧ slot ∈ v.elementSlots g slot.name := by
  rw [Model.slots, List.mem_flatMap]
  constructor
  · rintro ⟨u, hu, hslot⟩
    obtain rfl := m.variable_unique hu hv (Variable.name_of_mem_slots hslot) hname
    obtain ⟨hknown, _, hslot⟩ := Variable.mem_slots.mp hslot
    exact ⟨hknown, hslot⟩
  · rintro ⟨hknown, hslot⟩
    exact ⟨v, hv, Variable.mem_slots.mpr ⟨hknown, hname, hslot⟩⟩

theorem Variable.mem_elementSlots_of_isState (h : v.isState = true) :
    slot ∈ v.elementSlots g slot.name ↔ match slot.kind with
      | .derivative => g.differentiates slot.name = true
      | .value => g.constrains slot.name = true := by
  obtain ⟨name, kind⟩ := slot
  rw [elementSlots, if_pos h]
  cases kind <;> simp

/-- What is neither known nor a state is a slot, as a value only. -/
theorem Model.filter_slots (hv : v ∈ m.vars) (hknown : v.isKnown = false)
    (hstate : v.isState = false) (helement : element ∈ v.elementNames) :
    (m.slots g).filter (fun slot => slot.name = element) = [⟨element, .value⟩] := by
  refine List.perm_singleton.mp ?_
  rw [List.perm_ext_iff_of_nodup ((m.nodup_slots g).filter _) (List.nodup_singleton _)]
  intro slot
  rw [List.mem_filter, decide_eq_true_eq, List.mem_singleton]
  constructor
  · rintro ⟨hslot, rfl⟩
    have hmem := ((m.mem_slots_iff hv helement).mp hslot).2
    rw [Variable.elementSlots, if_neg (Bool.eq_false_iff.mp hstate)] at hmem
    exact List.mem_singleton.mp hmem
  · rintro rfl
    refine ⟨(m.mem_slots_iff hv helement).mpr ⟨hknown, ?_⟩, rfl⟩
    rw [Variable.elementSlots, if_neg (Bool.eq_false_iff.mp hstate)]
    exact List.mem_singleton_self _

/-! ### References and slots -/

/-- An expression of the entry has the element outside of left limits, as value or as derivative. -/
def Model.Mentions (m : Model) (e : Entry) (element : String) : Prop :=
  ∃ x ∈ e.exprs, ∃ site ∈ x.sites false false, site.inPre = false ∧
    ∃ v, m.referent? site.name = some v ∧ element ∈ v.scalarNames site.name

theorem Model.mentions_iff (h : m.incidence includeInitial = .ok g) (he : e ∈ g.entries)
    (hv : v ∈ m.vars) (hknown : v.isKnown = false) (helement : element ∈ v.elementNames) :
    m.Mentions e element ↔ ∃ o ∈ e.references, o.name = element := by
  rw [(m.entry_reads h he).2]
  constructor
  · rintro ⟨x, hx, site, hsite, hpre, u, hu, hname⟩
    obtain rfl := m.variable_unique (m.mem_of_referent? hu) hv
      (Variable.mem_scalarNames hname) helement
    refine ⟨⟨element, if site.inDer then .derivative else .value⟩, ?_, rfl⟩
    refine List.mem_flatMap.mpr ⟨x, hx, List.mem_flatMap.mpr ⟨site, hsite, ?_⟩⟩
    exact m.mem_readAt_iff.mpr ⟨u, hu, hpre, hknown, hname, rfl⟩
  · rintro ⟨o, ho, rfl⟩
    obtain ⟨x, hx, ho⟩ := List.mem_flatMap.mp ho
    obtain ⟨site, hsite, hread⟩ := List.mem_flatMap.mp ho
    obtain ⟨u, hu, hpre, _, hname, _⟩ := m.mem_readAt_iff.mp hread
    exact ⟨x, hx, site, hsite, hpre, u, hu, hname⟩

theorem Model.slot_or_state (h : m.incidence includeInitial = .ok g) (he : e ∈ g.entries)
    (ho : o ∈ e.references) : o ∈ m.slots g ∨
      o.kind = .value ∧ ∃ v ∈ m.vars, v.isState = true ∧ o.name ∈ v.elementNames := by
  obtain ⟨haccepts, hreads⟩ := m.entry_reads h he
  rw [hreads] at ho
  obtain ⟨x, hx, hread⟩ := List.mem_flatMap.mp ho
  refine (haccepts x hx).slot_or_state hread fun hder => ?_
  obtain ⟨name, kind⟩ := o
  obtain rfl : kind = .derivative := by simpa [Occurrence.isDerivative] using hder
  exact Incidence.differentiates_iff.mpr ⟨e, he, hreads ▸ ho⟩

/-- A derivative that an entry references is that of a state. -/
theorem Model.state_of_derivative (h : m.incidence includeInitial = .ok g) (he : e ∈ g.entries)
    (ho : o ∈ e.references) (hkind : o.kind = .derivative) :
    ∃ v ∈ m.vars, v.isState = true ∧ o.name ∈ v.elementNames := by
  obtain ⟨haccepts, hreads⟩ := m.entry_reads h he
  rw [hreads] at ho
  obtain ⟨x, hx, ho⟩ := List.mem_flatMap.mp ho
  obtain ⟨site, hsite, hread⟩ := List.mem_flatMap.mp ho
  obtain ⟨v, hv, _, hname, hder⟩ := m.mem_readAt hread
  have hderivative : o.isDerivative = true := by simp [Occurrence.isDerivative, hkind]
  have hstate := (haccepts x hx).states site hsite (hder.mp hderivative)
  exact ⟨v, m.mem_of_referent? hv, hstate v hv, hname⟩

/-- Whatever an entry references has a slot, unless it is the value of a state that no initial entry
mentions. A slot of a state comes from a reference to the state, one in an initial entry if it is
the value. Every element of another unknown has one slot. -/
theorem Model.unknowns_have_slots (m : Model) (includeInitial : Bool) (g : Incidence)
    (h : m.incidence includeInitial = .ok g) :
    (∀ e ∈ g.entries, ∀ o ∈ e.references, o ∈ m.slots g ∨
      o.kind = .value ∧ (∃ v ∈ m.vars, v.isState = true ∧ o.name ∈ v.elementNames) ∧
        ∀ i ∈ g.entries, i.origin = .initial → ¬ m.Mentions i o.name) ∧
    (∀ e ∈ g.entries, ∀ o ∈ e.references, o.kind = .derivative →
      o ∈ m.slots g ∧ ∃ v ∈ m.vars, v.isState = true ∧ o.name ∈ v.elementNames) ∧
    (∀ v ∈ m.vars, v.isState = true → ∀ slot ∈ m.slots g, slot.name ∈ v.elementNames →
      match slot.kind with
      | .derivative => ∃ e ∈ g.entries, slot ∈ e.references
      | .value => ∃ e ∈ g.entries, e.origin = .initial ∧ ∃ o ∈ e.references, o.name = slot.name) ∧
    ∀ v ∈ m.vars, v.role ∈ [.algebraic, .discreteReal, .discreteValued, .output] →
      ∀ element ∈ v.elementNames,
        (m.slots g).filter (fun slot => slot.name = element) = [⟨element, .value⟩] := by
  refine ⟨fun e he o ho => ?_, fun e he o ho hkind => ?_, fun v hv hstate slot hslot hname => ?_,
    fun v hv hrole element helement => ?_⟩
  · rcases m.slot_or_state h he ho with hslot | ⟨hkind, v, hv, hstate, hname⟩
    · exact .inl hslot
    · have hknown := Variable.isKnown_of_isState hstate
      by_cases hconstrained : g.constrains o.name = true
      · refine .inl ((m.mem_slots_iff hv hname).mpr ⟨hknown, ?_⟩)
        rw [Variable.mem_elementSlots_of_isState hstate, hkind]
        exact hconstrained
      · refine .inr ⟨hkind, ⟨v, hv, hstate, hname⟩, fun i hi hinitial hmentions => ?_⟩
        obtain ⟨o', ho', heq⟩ := (m.mentions_iff h hi hv hknown hname).mp hmentions
        exact hconstrained (Incidence.constrains_iff.mpr ⟨i, hi, hinitial, o', ho', heq⟩)
  · refine ⟨(m.slot_or_state h he ho).resolve_right fun hvalue => ?_,
      m.state_of_derivative h he ho hkind⟩
    cases hkind.symm.trans hvalue.1
  · have hmem := ((m.mem_slots_iff hv hname).mp hslot).2
    rw [Variable.mem_elementSlots_of_isState hstate] at hmem
    obtain ⟨name, kind⟩ := slot
    cases kind with
    | derivative => exact Incidence.differentiates_iff.mp hmem
    | value => exact Incidence.constrains_iff.mp hmem
  · have hroles : v.isKnown = false ∧ v.isState = false := by
      rw [Variable.isKnown, Variable.isState]
      generalize v.role = role at hrole
      revert role
      decide
    exact m.filter_slots hv hroles.1 hroles.2 helement

/-- The equations `der(x) + x = y * z` and `y = x`, and initially `x = pre(z)`. -/
def Draft.anchored : Draft where
  name := "anchored"
  vars := [.ofRole .state "x" x_ne_empty, .unknown "y" y_ne_empty, .ofRole .state "z" z_ne_empty]
  equations
    | .continuous => [.simple (.binary .add (.der (.var "x")) (.var "x"))
          (.binary .mul (.var "y") (.var "z")),
        .simple (.var "y") (.var "x")]
    | .initial => [.simple (.var "x") (.pre (.var "z"))]
    | _ => []
  description := ""

theorem Draft.elaborate_anchored :
    Draft.anchored.elaborate = .ok Draft.anchored.asDeclared := by
  apply Draft.elaborate_of_sections
  · cbv
  · cbv
  · intro s
    cases s <;> cbv
  · intro s
    cases s <;> cbv

def Model.anchored : Model where
  toDraft := .anchored
  expanded := Draft.anchored.asDeclared
  accepted := Draft.elaborate_anchored

/-- The value of `x` is a slot and that of `z` is none, since a left limit does not constrain it. -/
theorem anchored_unknowns_have_slots : ∃ g, Model.anchored.incidence true = .ok g ∧
    Model.anchored.slots g = [⟨"x", .derivative⟩, ⟨"x", .value⟩, ⟨"y", .value⟩] ∧
    ∃ e ∈ g.entries, ⟨"z", .value⟩ ∈ e.references ∧
      ∀ i ∈ g.entries, i.origin = .initial → ¬ Model.anchored.Mentions i "z" := by
  have hfacts : (Model.anchored.incidence true).map (fun g => (Model.anchored.slots g,
      g.entries.map (·.references))) = .ok
      ([⟨"x", .derivative⟩, ⟨"x", .value⟩, ⟨"y", .value⟩],
        [[⟨"x", .derivative⟩, ⟨"x", .value⟩, ⟨"y", .value⟩, ⟨"z", .value⟩],
          [⟨"y", .value⟩, ⟨"x", .value⟩], [⟨"x", .value⟩]]) := by cbv
  obtain ⟨g, hg, hfacts⟩ := map_eq_ok.mp hfacts
  obtain ⟨hslots, hreferences⟩ := Prod.mk.inj hfacts
  obtain ⟨hslot, _⟩ := Model.unknowns_have_slots .anchored true g hg
  obtain ⟨e, he, hz⟩ := List.mem_map.mp (hreferences ▸ List.mem_cons_self)
  have hread : ⟨"z", .value⟩ ∈ e.references := by simp [hz]
  refine ⟨g, hg, hslots, e, he, hread, ?_⟩
  refine ((hslot e he _ hread).resolve_left fun hmem => ?_).2.2
  simp [hslots] at hmem

end Causality
