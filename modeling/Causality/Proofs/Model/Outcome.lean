import Causality.Equation.Build
import Causality.Proofs.Equation.Faults
import Causality.Proofs.Model.Elementwise

/-!
# Outcomes of a check

A draft over known nodes becomes a model or is refused with an error of the model. What else can
happen is a mishap: an array has too many elements, a loop has a step of zero, a literal in a
subscript cannot be converted, or a text would hold an integer that cannot be written. Each mishap
is tied to what is met when the loops are unrolled, and no accepted draft has one.
-/

namespace Causality

variable {d : Draft} {s : Section} {l : Labelled} {v : Variable} {fault : Fault} {x : Expr}
  {name : String} {subscripts : List Expr} {shape : List Whole} {vars : List Variable}

/-! ### Declarations -/

theorem Variable.one_le_of_shape (v : Variable) (h : v.shape = some shape) :
    ∀ n ∈ (shapeExtents shape).map Int.toNat, 1 ≤ n := by
  have hshape : Declaration.fault?.shapeFault? v.toDeclaration = none := by
    have hsound := v.sound
    unfold Declaration.fault? at hsound
    split_ifs at hsound
    exact (Option.or_eq_none_iff.mp (by simpa using hsound)).2
  simp only [Declaration.fault?.shapeFault?, h] at hshape
  split_ifs at hshape with hbad
  simp only [not_or, Bool.not_eq_true, List.any_eq_false, decide_eq_true_eq, not_lt] at hbad
  simp only [shapeExtents, List.map_map, List.forall_mem_map]
  intro n hn
  have := hbad.2 n hn
  simp only [Function.comp_apply]
  omega

/-- The extents of an array that memory has room for can be written. -/
theorem Variable.isWritable_shape (hv : v.checkExtents = .ok ()) (h : v.shape = some shape) :
    shape.all Whole.isWritable = true := by
  rw [List.all_eq_true]
  intro n hn
  have hpositive : 1 ≤ n.toInt.toNat := v.one_le_of_shape h n.toInt.toNat
    (List.mem_map_of_mem (List.mem_map_of_mem hn))
  have hbounded : n.toInt.toNat < Decimal.twos 32 := by
    unfold checkExtents at hv
    split at hv
    · cases hv
    · next hnone =>
      rw [extents_of_shape h, Option.getD_some, List.findSome?_eq_none_iff] at hnone
      have hextent := hnone _ (List.mem_map_of_mem (List.mem_map_of_mem hn))
      unfold extentFault? at hextent
      split_ifs at hextent with _ hsmall
      exact not_le.mp hsmall
  cases n with
  | bool b => rfl
  | int n =>
    have hpower : Decimal.twos 32 ≤ 10 ^ digitLimit := by decide +kernel
    rw [Whole.toInt] at hpositive hbounded
    have hsmall : n.natAbs < Decimal.twos 32 := by omega
    exact decide_eq_true (Nat.toDigits_length 10 _ _ (by decide) (hsmall.trans_le hpower))

theorem checkExtents_of_checkNames {earlier : List Variable}
    (h : checkNames earlier vars = .ok ()) : ∀ v ∈ vars, v.checkExtents = .ok () := by
  induction vars generalizing earlier with
  | nil => exact List.forall_mem_nil _
  | cons v rest ih =>
    rw [checkNames] at h
    split_ifs at h
    obtain ⟨_, hv, h⟩ := bind_eq_ok.mp h
    split at h
    · cases h
    · exact List.forall_mem_cons.mpr ⟨hv, ih h⟩

theorem checkNames_fails (earlier vars : List Variable) :
    FailsOnly (fun fault => fault.isModelError = true ∨ ∃ v ∈ vars, v.checkExtents = .error fault)
      (checkNames earlier vars) := by
  induction vars generalizing earlier with
  | nil => exact .ok _
  | cons v rest ih =>
    unfold checkNames
    split
    · exact .error (.inl rfl)
    · apply FailsOnly.bind
      · constructor
        intro fault hfault
        exact .inr ⟨v, List.mem_cons_self, hfault⟩
      · intro _ _
        split
        · exact .error (.inl rfl)
        · apply (ih (earlier ++ [v])).imp
          rintro fault (hmodel | ⟨w, hw, hextents⟩)
          · exact .inl hmodel
          · exact .inr ⟨w, List.mem_cons_of_mem _ hw, hextents⟩

/-- All positions are listed in the message, in order. -/
theorem checkPositions_fails (states : List Variable) :
    FailsOnly (fun fault => fault.isModelError = true ∨ fault = .unwritableInteger ∧
      ∃ v ∈ states, ∃ position, v.stateIndex = some position ∧ position.isWritable = false)
      (checkPositions states) := by
  unfold checkPositions
  dsimp only
  split
  · exact .ok _
  · split
    · exact .error (.inl rfl)
    · split
      · apply FailsOnly.error
        obtain hraised | ⟨hraised, hlong⟩ := Fault.raised_eq_or (.scatteredIndices
          ((states.filterMap (·.stateIndex)).mergeSort fun a b => a.toInt ≤ b.toInt) states.length)
        · rw [hraised]
          exact .inl rfl
        · obtain ⟨position, hposition, hwritable⟩ := List.all_eq_false.mp hlong
          rw [List.mem_mergeSort] at hposition
          obtain ⟨v, hv, hindex⟩ := List.mem_filterMap.mp hposition
          exact .inr ⟨hraised, v, hv, position, hindex, Bool.eq_false_iff.mpr hwritable⟩
      · exact .ok _

namespace Draft

/-! ### What is met in a draft -/

/-- No equation holds a foreign node. -/
def Known (d : Draft) : Prop := ∀ s, ∀ e ∈ d.equations s, ∀ x ∈ e.exprs, x.Known

/-- Once loops are unrolled, the draft refers to the name with these subscripts. -/
def References (d : Draft) (name : String) (subscripts : List Expr) : Prop :=
  subscripts ≠ [] ∧
    ∃ s, ∃ e ∈ d.equations s, ∃ x, e.Unrolls x ∧ .ref name subscripts ∈ x.nodes

/-- What goes wrong without an error of the model. -/
inductive IsMishap (d : Draft) : Fault → Prop
  | extent {v : Variable} {fault : Fault} (hv : v ∈ d.vars)
    (hfault : v.checkExtents = .error fault) : IsMishap d fault
  | position {v : Variable} {position : Whole}
    (h : checkPositions d.states = .error .unwritableInteger) (hv : v ∈ d.states)
    (hposition : v.stateIndex = some position) (hwritable : position.isWritable = false) :
    IsMishap d .unwritableInteger
  | zeroStep {s : Section} {e : Equation} {index : String} {start stop : Int}
    {body : List Equation} (he : e ∈ d.equations s)
    (hloop : e.Reaches (.loop index start stop 0 body)) : IsMishap d .zeroRangeStep
  | label {s : Section} {e : Equation} {index : String} {start stop step : Int}
    {body : List Equation} (he : e ∈ d.equations s)
    (hloop : e.Reaches (.loop index start stop step body)) (hbody : body ≠ []) (k : Nat)
    (hrange : if 0 < step then start + k * step ≤ stop else stop ≤ start + k * step)
    (hwritable : Causality.isWritable (start + k * step) = false) : IsMishap d .unwritableInteger
  | subscript {name : String} {subscripts : List Expr} {t : Expr} {fault : Fault}
    (href : d.References name subscripts) (ht : t ∈ subscripts)
    (hfault : t.evaluateInt = .error fault) (hcause : t.Misreads fault) : IsMishap d fault
  | element {name : String} {subscripts : List Expr} {indices : List Int} {n : Int}
    (href : d.References name subscripts)
    (hindices : subscripts.mapM Expr.evaluateInt = .ok indices) (hn : n ∈ indices)
    (hwritable : Causality.isWritable n = false) : IsMishap d .unwritableInteger
  | sides {s : Section} {i : Nat} {e : Equation} {ls : List Labelled} {l : Labelled}
    {lhs rhs : Expr} (he : (d.equations s)[i]? = some e) (hls : e.expand (s.place i) = .ok ls)
    (hl : l ∈ ls) (hnode : .simple lhs rhs ∈ l.equation.nodes)
    (hfault : splitSimple d.vars l.label lhs rhs = .error .unwritableInteger)
    (hwritable : (Equation.simple lhs rhs).isWritable = false) : IsMishap d .unwritableInteger
  | derivative {s : Section} {ls : List Labelled} {l : Labelled} {x operand : Expr}
    (hs : d.expandSection s = .ok ls) (hl : l ∈ ls) (hx : x ∈ l.equation.exprs)
    (hnode : .der operand ∈ x.nodes)
    (hfault : d.checkDerivative l.label (.der operand) = .error .unwritableInteger)
    (hwritable : (Expr.der operand).isWritable = false) : IsMishap d .unwritableInteger
  | branches {s : Section} {ls : List Labelled} {l : Labelled} (hs : d.expandSection s = .ok ls)
    (hl : l ∈ ls) (h : l.equation.Illegible) : IsMishap d .unwritableInteger

/-- The fault is not about subscripts: a node is foreign, names or positions clash, something is
differentiated that is no state, a choice is not balanced, or there is a mishap. -/
inductive IsOtherFlaw (d : Draft) : Fault → Prop
  | foreign {s : Section} {e : Equation} {x : Expr} {kind : String} (he : e ∈ d.equations s)
    (hx : e.Unrolls x) (hnode : .foreign kind ∈ x.nodes) : IsOtherFlaw d (.unknownNode kind)
  | names {fault : Fault} (h : checkNames [] d.vars = .error fault) : IsOtherFlaw d fault
  | positions {fault : Fault} (h : checkPositions d.states = .error fault) : IsOtherFlaw d fault
  | derivative {s : Section} {ls : List Labelled} {l : Labelled} {x node : Expr} {fault : Fault}
    (hs : d.expandSection s = .ok ls) (hl : l ∈ ls) (hx : x ∈ l.equation.exprs)
    (hnode : node ∈ x.nodes) (h : d.checkDerivative l.label node = .error fault) :
    IsOtherFlaw d fault
  | residuals {s : Section} {ls : List Labelled} {l : Labelled} {fault : Fault}
    (hs : d.expandSection s = .ok ls) (hl : l ∈ ls) (h : l.equation.residuals = .error fault) :
    IsOtherFlaw d fault
  | mishap {fault : Fault} (h : d.IsMishap fault) : IsOtherFlaw d fault

/-! ### Expansion -/

theorem IsOtherFlaw.of_stops {e : Equation} (he : e ∈ d.equations s) (h : e.Stops fault) :
    fault.isSubscriptError = true ∨ d.IsOtherFlaw fault := by
  cases h with
  | zeroStep h => exact .inr (.mishap (.zeroStep he h))
  | label h hbody k hrange hwritable =>
    exact .inr (.mishap (.label he h hbody k hrange hwritable))
  | expression hx hfault =>
    cases hfault with
    | foreign hnode => exact .inr (.foreign he hx hnode)
    | @subscript name subscripts t fault hnode ht hfault =>
      have href : d.References name subscripts := ⟨List.ne_nil_of_mem ht, s, e, he, _, hx, hnode⟩
      obtain hsubscript | hcause := t.evaluateInt_fails.of_error fault hfault
      · exact .inl hsubscript
      · exact .inr (.mishap (.subscript href ht hfault hcause))
    | @element name subscripts indices n hnode hindices hn hwritable =>
      have hne : subscripts ≠ [] := by
        rintro rfl
        obtain rfl := Except.ok.inj hindices
        cases hn
      have href : d.References name subscripts := ⟨hne, s, e, he, _, hx, hnode⟩
      exact .inr (.mishap (.element href hindices hn hwritable))

theorem expandEquation_fails {e : Equation} {i : Nat} (hnames : checkNames [] d.vars = .ok ())
    (he : (d.equations s)[i]? = some e) :
    FailsOnly (fun fault => fault.isSubscriptError = true ∨ d.IsOtherFlaw fault)
      (d.expandEquation (s.place i) e) := by
  have hshapes : ∀ v ∈ d.vars, ∀ shape, v.shape = some shape →
      shape.all Whole.isWritable = true :=
    fun v hv _ hshape => Variable.isWritable_shape (checkExtents_of_checkNames hnames v hv) hshape
  apply FailsOnly.bind
  · exact (e.expand_stops (s.place i)).imp
      fun _ => IsOtherFlaw.of_stops (List.mem_of_getElem? he)
  · intro ls hls
    apply FailsOnly.bind
    · apply FailsOnly.mapM
      intro l hl
      have hplain := (Equation.expandUnder_expanded e _ _ ls hls l hl).plain
      apply Equation.failsOnly_split
      intro lhs rhs hnode
      obtain ⟨hlhs, hrhs⟩ := List.forall_mem_cons.mp (l.equation.exprs_nodes _ hnode)
      have hleft := (hplain lhs hlhs).known lhs
      have hright := (hplain rhs (List.forall_mem_singleton.mp hrhs)).known rhs
      constructor
      intro fault hfault
      obtain hsubscript | ⟨rfl, hwritable⟩ :=
        (splitSimple_fails hleft hright hshapes).of_error fault hfault
      · exact .inl hsubscript
      · exact .inr (.mishap (.sides he hls hl hnode hfault hwritable))
    · exact fun _ _ => .pure _

theorem expandSection_fails (hnames : checkNames [] d.vars = .ok ()) (s : Section) :
    FailsOnly (fun fault => fault.isSubscriptError = true ∨ d.IsOtherFlaw fault)
      (d.expandSection s) := by
  apply FailsOnly.bind
  · apply FailsOnly.mapM
    intro place hplace
    exact expandEquation_fails hnames (List.mem_zipIdx_iff_getElem?.mp hplace)
  · exact fun _ _ => .pure _

theorem expandSections_fails (hnames : checkNames [] d.vars = .ok ()) :
    FailsOnly (fun fault => fault.isSubscriptError = true ∨ d.IsOtherFlaw fault)
      d.expandSections := by
  apply (expandSection_fails hnames .continuous).bind
  intro _ _
  apply (expandSection_fails hnames .event).bind
  intro _ _
  apply (expandSection_fails hnames .discrete).bind
  intro _ _
  apply (expandSection_fails hnames .initial).bind
  intro _ _
  exact .pure _

/-! ### Checks of expanded equations -/

theorem checkSubscript_fails (hnames : checkNames [] d.vars = .ok ()) (label : String)
    (node : Expr) :
    FailsOnly (fun fault => fault.isSubscriptError = true) (d.checkSubscript label node) := by
  unfold checkSubscript
  split
  · unfold checkReference
    split
    · exact .ok _
    · split
      · exact .ok _
      · split
        · exact .ok _
        · next v hdeclared =>
          split
          · exact .error rfl
          · next shape hshape =>
            have hv := checkExtents_of_checkNames hnames v (declaredAs?_eq_some hdeclared).1
            have hwritable : ∀ name base, (Fault.outOfRange label name base shape).isWritable :=
              fun _ _ => Variable.isWritable_shape hv hshape
            rw [Fault.raised, if_pos (hwritable _ _)]
            exact .error rfl
  · exact .ok _

theorem checkDerivative_fails (label : String) (node : Expr) :
    FailsOnly (fun fault => fault.isModelError = true ∨
      fault = .unwritableInteger ∧ node.isWritable = false ∧ ∃ operand, node = .der operand)
      (d.checkDerivative label node) := by
  unfold checkDerivative
  split
  · split
    · exact .ok _
    · split
      · exact .ok _
      · exact .error (.inl rfl)
  · next operand _ =>
    apply FailsOnly.error
    obtain hraised | ⟨hraised, hwritable⟩ :=
      Fault.raised_eq_or (.derOfExpression label (.der operand))
    · rw [hraised]
      exact .inl rfl
    · exact .inr ⟨hraised, hwritable, operand, rfl⟩
  · exact .ok _

theorem failsOnly_checkNodes {P : Fault → Prop} {check : Expr → Except Fault Unit}
    {es : List Expr} (hes : ∀ x ∈ es, x.Known)
    (hcheck : ∀ x ∈ es, ∀ node ∈ x.nodes, FailsOnly P (check node)) :
    FailsOnly P (checkNodes check es) := by
  apply FailsOnly.forM
  intro x hx
  rw [Expr.walk_eq (hes x hx)]
  apply FailsOnly.ok_bind
  apply FailsOnly.forM
  exact fun node hnode => hcheck x hx node hnode

theorem checkEquation_fails {ls : List Labelled} (hnames : checkNames [] d.vars = .ok ())
    (hs : d.expandSection s = .ok ls) (hl : l ∈ ls) :
    FailsOnly (fun fault => fault.isSubscriptError = true ∨ d.IsOtherFlaw fault)
      (d.checkEquation l) := by
  have hplain := (expandSection_expanded hs l hl).1.plain
  have hknown : ∀ x ∈ l.equation.exprs, x.Known := fun x hx => (hplain x hx).known x
  apply FailsOnly.bind
  · apply failsOnly_checkNodes hknown
    exact fun x _ node _ => (checkSubscript_fails hnames l.label node).imp fun _ => .inl
  · intro _ _
    apply FailsOnly.bind
    · apply failsOnly_checkNodes hknown
      exact fun x hx node hnode => ⟨fun _ h => .inr (.derivative hs hl hx hnode h)⟩
    · intro _ _
      apply FailsOnly.bind ⟨fun _ h => .inr (.residuals hs hl h)⟩
      exact fun _ _ => .pure _

/-! ### Drafts -/

theorem elaborate_fails (d : Draft) :
    FailsOnly (fun fault => fault.isSubscriptError = true ∨ d.IsOtherFlaw fault) d.elaborate := by
  apply FailsOnly.bind ⟨fun _ h => .inr (.names h)⟩
  intro _ hnames
  apply FailsOnly.bind ⟨fun _ h => .inr (.positions h)⟩
  intro _ _
  apply (expandSections_fails hnames).bind
  intro expanded hexpanded
  apply FailsOnly.bind
  · apply FailsOnly.forM
    intro s _
    apply FailsOnly.forM
    exact fun l hl => checkEquation_fails hnames (expandSections_eq_ok.mp hexpanded s) hl
  · exact fun _ _ => .pure _

theorem check_eq_error {fault : Fault} (h : d.check = .error fault) :
    d.elaborate = .error fault := by
  unfold check at h
  split at h
  · cases h
  · next _ hfault => rwa [Except.error.inj h] at hfault

theorem toDraft_of_check {m : Model} (h : d.check = .ok m) : m.toDraft = d := by
  unfold check at h
  split at h
  · rw [← Except.ok.inj h]
  · cases h

/-- Over known nodes, a flaw is an error of the model or a mishap. -/
theorem IsOtherFlaw.isModelError_or (h : d.IsOtherFlaw fault) (hd : d.Known) :
    fault.isModelError = true ∨ d.IsMishap fault := by
  cases h with
  | foreign he hx hnode =>
    have hknown := Equation.Unrolls.known hx (hd _ _ he)
    exact absurd hnode (hknown.not_foreign _)
  | names h =>
    obtain hmodel | ⟨v, hv, hextents⟩ := (checkNames_fails [] d.vars).of_error fault h
    · exact .inl hmodel
    · exact .inr (.extent hv hextents)
  | positions h =>
    obtain hmodel | ⟨rfl, v, hv, position, hposition, hwritable⟩ :=
      (checkPositions_fails d.states).of_error fault h
    · exact .inl hmodel
    · exact .inr (.position h hv hposition hwritable)
  | derivative hs hl hx hnode h =>
    obtain hmodel | ⟨rfl, hwritable, operand, rfl⟩ := (checkDerivative_fails _ _).of_error fault h
    · exact .inl hmodel
    · exact .inr (.derivative hs hl hx hnode h hwritable)
  | residuals hs hl h =>
    obtain hunbalance | ⟨rfl, hillegible⟩ :=
      (expandSection_expanded hs _ hl).1.loopFree.unbalance.of_error fault h
    · exact .inl (Fault.isModelError_of_isUnbalance hunbalance)
    · exact .inr (.branches hs hl hillegible)
  | mishap h => exact .inr h

end Draft

/-! ### Accepted drafts -/

namespace Model

variable {m : Model}

theorem not_stops {e : Equation} (he : e ∈ m.equations s) : ¬ e.Stops fault := by
  intro h
  obtain ⟨i, hi⟩ := List.mem_iff_getElem?.mp he
  obtain ⟨ls, hls, _⟩ := m.exists_expand hi
  exact h.expand_ne_ok hls

theorem not_isMishap (m : Model) : ¬ m.IsMishap fault := by
  intro h
  cases h with
  | extent hv hfault =>
    cases hfault.symm.trans (checkExtents_of_checkNames m.checkNames_eq_ok _ hv)
  | position h hv hposition hwritable => cases h.symm.trans m.checkPositions_eq_ok
  | zeroStep he hloop => exact m.not_stops he (.zeroStep hloop)
  | label he hloop hbody k hrange hwritable =>
    exact m.not_stops he (.label hloop hbody k hrange hwritable)
  | subscript href ht hfault hcause =>
    obtain ⟨_, s, e, he, x, hx, hnode⟩ := href
    exact m.not_stops he (.expression hx (.subscript hnode ht hfault))
  | element href hindices hn hwritable =>
    obtain ⟨_, s, e, he, x, hx, hnode⟩ := href
    exact m.not_stops he (.expression hx (.element hnode hindices hn hwritable))
  | sides he hls hl hnode hfault hwritable =>
    obtain ⟨results, hresults, _⟩ := m.exists_split he hls hl hnode
    cases hfault.symm.trans hresults
  | derivative hs hl hx hnode hfault hwritable =>
    obtain rfl := Except.ok.inj (hs.symm.trans (m.expandSection_eq_ok _))
    cases hfault.symm.trans (m.checkDerivative_of_mem hl hx _ hnode)
  | branches hs hl h =>
    obtain rfl := Except.ok.inj (hs.symm.trans (m.expandSection_eq_ok _))
    obtain ⟨n, hn, hcomplete, _⟩ := h
    obtain ⟨rs, hrs⟩ := (Draft.checkEquation_iff.mp (m.checkEquation_eq_ok hl)).2.2
    exact hcomplete ((Equation.residuals_eq_ok.mp hrs).1 n hn).isComplete

theorem not_isOtherFlaw (m : Model) : ¬ m.IsOtherFlaw fault := by
  intro h
  cases h with
  | foreign he hx hnode => exact m.not_stops he (.expression hx (.foreign hnode))
  | names h => cases h.symm.trans m.checkNames_eq_ok
  | positions h => cases h.symm.trans m.checkPositions_eq_ok
  | derivative hs hl hx hnode h =>
    obtain rfl := Except.ok.inj (hs.symm.trans (m.expandSection_eq_ok _))
    cases h.symm.trans (m.checkDerivative_of_mem hl hx _ hnode)
  | residuals hs hl h =>
    obtain rfl := Except.ok.inj (hs.symm.trans (m.expandSection_eq_ok _))
    obtain ⟨rs, hrs⟩ := (Draft.checkEquation_iff.mp (m.checkEquation_eq_ok hl)).2.2
    cases h.symm.trans hrs
  | mishap h => exact m.not_isMishap h

end Model

/-- A draft over known nodes is accepted, or it is refused with an error of the model, unless there
is a mishap. No draft with a mishap is accepted. -/
theorem Draft.check_outcome (d : Draft) (hd : d.Known) :
    ((∃ m, d.check = .ok m) ∨ ∃ fault, d.check = .error fault ∧
      (fault.isModelError = true ∨ d.IsMishap fault)) ∧
    ((∃ fault, d.IsMishap fault) → ∃ fault, d.check = .error fault) := by
  constructor
  · cases h : d.check with
    | ok m => exact .inl ⟨m, rfl⟩
    | error fault =>
      refine .inr ⟨fault, rfl, ?_⟩
      obtain hsubscript | hflaw := d.elaborate_fails.of_error fault (check_eq_error h)
      · exact .inl (Fault.isModelError_of_isSubscriptError hsubscript)
      · exact hflaw.isModelError_or hd
  · rintro ⟨fault, hmishap⟩
    cases h : d.check with
    | ok m =>
      rw [← toDraft_of_check h] at hmishap
      exact absurd hmishap m.not_isMishap
    | error fault => exact ⟨fault, rfl⟩

/-! ### A step of zero -/

/-- A loop that does not get on, with an empty body. -/
def Draft.stalled : Draft where
  name := "stalled"
  vars := []
  equations
    | .continuous => [.loop "i" 1 3 0 []]
    | _ => []
  description := ""

theorem Draft.known_stalled : Draft.stalled.Known := by
  intro s e he x hx
  cases s with
  | continuous =>
    obtain rfl := List.mem_singleton.mp he
    cases hx
  | _ => cases he

theorem Draft.check_stalled : Draft.stalled.check = .error .zeroRangeStep := by
  cbv

/-- One way to build a loop refuses the step of zero with an error of the model, the other lets it
pass, and then nothing says before the expansion what is wrong. -/
theorem stalled_loop_unrefused :
    Equation.forLoop "i" 1 3 [] 0 = .error (.zeroStep "i") ∧
      Equation.ofRange "i" 1 3 0 [] = .ok (.loop "i" 1 3 0 []) ∧
      (Fault.zeroStep "i").isModelError = true ∧
      Draft.stalled.check = .error .zeroRangeStep ∧ Fault.zeroRangeStep.isModelError = false :=
  ⟨rfl, rfl, rfl, Draft.check_stalled, rfl⟩

/-- With no variable and no subscript, only the loop is left as the cause. -/
theorem stalled_check_outcome :
    Draft.stalled.Known ∧ Draft.stalled.IsMishap .zeroRangeStep := by
  refine ⟨Draft.known_stalled, ?_⟩
  obtain ⟨⟨m, hm⟩ | ⟨fault, hfault, hcause⟩, _⟩ :=
    Draft.check_outcome .stalled Draft.known_stalled
  · cases hm.symm.trans Draft.check_stalled
  · obtain rfl := Except.error.inj (hfault.symm.trans Draft.check_stalled)
    obtain hmodel | hmishap := hcause
    · cases hmodel
    · exact hmishap

end Causality
