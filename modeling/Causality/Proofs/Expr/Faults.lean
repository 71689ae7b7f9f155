import Causality.Equation.Expansion
import Causality.Proofs.Expr.Sites
import Causality.Proofs.Failure

/-!
# What goes wrong with an expression

Substitution fails at foreign nodes only, and resolving at them and at subscripts. A subscript fails
with an error about subscripts, unless a literal in it cannot be converted, or the message would
hold an integer that cannot be written. What has a value may still come to too many digits for a
name.
-/

namespace Causality

/-- The fault says what is wrong with a model, and is not met by chance on the way. -/
def Fault.isModelError : Fault → Bool
  | zeroRangeStep | arithmeticComparison _ | unknownNode _ | unexpandedLoop | conversion _
  | unwritableInteger | uncountableExtent | unstorableExtent | undeclared _ _ | notAState _ _
  | unknownKey _ | emptyComponent | emptyBlock => false
  | _ => true

/-- The fault says that a range, a subscript or a shape is wrong. -/
def Fault.isSubscriptError : Fault → Bool
  | zeroStep _ | nonIntegerSubscript _ | variableSubscript _ | differentShapes _ _ _
  | scalarWithArray _ _ _ | notAnArray _ _ _ | outOfRange _ _ _ _ => true
  | _ => false

theorem Fault.isModelError_of_isSubscriptError {fault : Fault}
    (h : fault.isSubscriptError = true) : fault.isModelError = true := by
  cases fault <;> first | rfl | cases h

namespace Expr

variable {σ : Substitution} {keep : Bool} {name : String} {e r s part : Expr} {fault : Fault}
  {subscripts : List Expr}

/-! ### Substitution -/

theorem Known.not_foreign (he : e.Known) (kind : String) : .foreign kind ∉ e.nodes := by
  induction e using partsInduction with
  | _ e ih =>
    intro hnode
    rcases mem_nodes_iff.mp hnode with rfl | ⟨part, hpart, hnode⟩
    · exact he
    · exact ih part hpart (he.parts part hpart) hnode

theorem substituteAll_eq (es : List Expr) :
    substituteAll σ keep es = es.mapM (·.substitute σ keep) := by
  induction es with
  | nil => rfl
  | cons e rest ih => rw [substituteAll, ih, List.mapM_cons]

theorem substituteAll_eq_ok {es rs : List Expr} : substituteAll σ keep es = .ok rs ↔
    List.Forall₂ (fun e r => e.substitute σ keep = .ok r) es rs := by
  rw [substituteAll_eq, mapM_eq_ok]

theorem substitute_fails (σ : Substitution) (keep : Bool) (e : Expr) :
    FailsOnly (fun fault => ∃ kind, .foreign kind ∈ e.nodes ∧ fault = .unknownNode kind)
      (e.substitute σ keep) := by
  induction e using partsInduction with
  | _ e ih =>
    have hparts : ∀ part ∈ e.parts, FailsOnly
        (fun fault => ∃ kind, .foreign kind ∈ e.nodes ∧ fault = .unknownNode kind)
        (part.substitute σ keep) := by
      intro part hpart
      apply (ih part hpart).imp
      rintro fault ⟨kind, hnode, hfault⟩
      exact ⟨kind, mem_nodes_iff.mpr (.inr ⟨part, hpart, hnode⟩), hfault⟩
    cases e with
    | lit value => exact .ok _
    | ref name subscripts =>
      cases subscripts with
      | nil => exact .ok _
      | cons s rest =>
        rw [substitute, substituteAll_eq]
        apply (hparts s List.mem_cons_self).bind
        intro _ _
        apply FailsOnly.bind
        · exact FailsOnly.mapM fun e he => hparts e (List.mem_cons_of_mem _ he)
        · exact fun _ _ => .pure _
    | unary op operand | der operand | pre operand =>
      rw [substitute]
      apply (hparts operand List.mem_cons_self).bind
      exact fun _ _ => .pure _
    | binary op left right =>
      rw [substitute]
      apply (hparts left (by simp [parts])).bind
      intro _ _
      apply (hparts right (by simp [parts])).bind
      exact fun _ _ => .pure _
    | call function arguments =>
      rw [substitute, substituteAll_eq]
      split
      · exact .ok _
      · apply FailsOnly.bind
        · exact FailsOnly.mapM hparts
        · exact fun _ _ => .pure _
    | cond condition whenTrue whenFalse =>
      rw [substitute]
      apply (hparts condition (by simp [parts])).bind
      intro _ _
      apply (hparts whenTrue (by simp [parts])).bind
      intro _ _
      apply (hparts whenFalse (by simp [parts])).bind
      exact fun _ _ => .pure _
    | foreign kind => exact .error ⟨kind, self_mem_nodes _, rfl⟩

theorem Known.exists_substitute (σ : Substitution) (keep : Bool) (e : Expr) (he : e.Known) :
    ∃ r, e.substitute σ keep = .ok r := by
  obtain hok | ⟨_, _, kind, hnode, _⟩ := (substitute_fails σ keep e).succeeds_or
  · exact hok
  · exact absurd hnode (he.not_foreign kind)

/-- Where no name stands for anything, nothing is changed. -/
theorem eq_of_substitute_none {e r : Expr} (h : e.substitute Substitution.none keep = .ok r) :
    r = e := by
  induction e using partsInduction generalizing r with
  | _ e ih =>
    have hall : ∀ {rs}, substituteAll Substitution.none keep e.parts = .ok rs → rs = e.parts := by
      intro rs hrs
      have heq := Forall₂.imp_of_mem (substituteAll_eq_ok.mp hrs)
        fun part hpart _ _ hsubstitute => (ih part hpart hsubstitute).symm
      rw [List.forall₂_eq_eq_eq] at heq
      exact heq.symm
    cases e with
    | lit value => exact (Except.ok.inj h).symm
    | ref name subscripts =>
      cases subscripts with
      | nil => exact (Except.ok.inj h).symm
      | cons s rest =>
        simp only [substitute, bind_eq_ok, pure_eq_ok] at h
        obtain ⟨x, hx, xs, hxs, rfl⟩ := h
        have hparts := hall (substituteAll_eq_ok.mpr (.cons hx (substituteAll_eq_ok.mp hxs)))
        exact congrArg (ref name) hparts
    | unary op operand | der operand | pre operand =>
      simp only [substitute, bind_eq_ok, pure_eq_ok] at h
      obtain ⟨x, hx, rfl⟩ := h
      rw [ih operand List.mem_cons_self hx]
    | binary op left right =>
      simp only [substitute, bind_eq_ok, pure_eq_ok] at h
      obtain ⟨x, hx, y, hy, rfl⟩ := h
      rw [ih left (by simp [parts]) hx, ih right (by simp [parts]) hy]
    | call function arguments =>
      unfold substitute at h
      split at h
      · exact (Except.ok.inj h).symm
      · simp only [bind_eq_ok, pure_eq_ok] at h
        obtain ⟨xs, hxs, rfl⟩ := h
        exact congrArg (call function) (hall hxs)
    | cond condition whenTrue whenFalse =>
      simp only [substitute, bind_eq_ok, pure_eq_ok] at h
      obtain ⟨x, hx, y, hy, z, hz, rfl⟩ := h
      rw [ih condition (by simp [parts]) hx, ih whenTrue (by simp [parts]) hy,
        ih whenFalse (by simp [parts]) hz]
    | foreign kind => cases h

theorem Plain.scalar_none {e : Expr} (h : e.Plain) : e.scalar Substitution.none = .ok e := by
  obtain ⟨r, hr⟩ := Known.exists_substitute Substitution.none false e (h.known e)
  obtain rfl := eq_of_substitute_none hr
  rw [scalar, hr]
  exact Plain.resolve_eq r h

/-! ### Subscripts -/

/-- A literal of the subscript cannot be converted to an integer, or a part of it, which a message
would show, cannot be written. -/
inductive Misreads (s : Expr) : Fault → Prop
  | conversion {value : Number} {cause : ConversionFault} (hvalue : .lit value ∈ s.nodes)
    (hcause : value.subscript? = .error cause) : Misreads s (.conversion cause)
  | message {node : Expr} (hnode : node ∈ s.nodes) (hwritable : node.isWritable = false) :
    Misreads s .unwritableInteger

theorem Misreads.of_part (hpart : part ∈ e.parts) (h : part.Misreads fault) :
    e.Misreads fault := by
  have hmem : ∀ n ∈ part.nodes, n ∈ e.nodes :=
    fun n hn => mem_nodes_iff.mpr (.inr ⟨part, hpart, hn⟩)
  cases h with
  | conversion hvalue hcause => exact .conversion (hmem _ hvalue) hcause
  | message hnode hwritable => exact .message (hmem _ hnode) hwritable

theorem isSubscriptError_or_misreads (hfault : fault.isSubscriptError = true)
    (hwritable : fault.isWritable = false → e.isWritable = false) :
    fault.raised.isSubscriptError = true ∨ e.Misreads fault.raised := by
  obtain hraised | ⟨hraised, hlong⟩ := fault.raised_eq_or
  · rw [hraised]
    exact .inl hfault
  · rw [hraised]
    exact .inr (.message (self_mem_nodes _) (hwritable hlong))

theorem evaluateInt_fails (e : Expr) :
    FailsOnly (fun fault => fault.isSubscriptError = true ∨ e.Misreads fault) e.evaluateInt := by
  induction e using partsInduction with
  | _ e ih =>
    have hparts : ∀ part ∈ e.parts,
        FailsOnly (fun fault => fault.isSubscriptError = true ∨ e.Misreads fault)
          part.evaluateInt :=
      fun part hpart => (ih part hpart).imp fun _ => Or.imp_right (.of_part hpart)
    have hconstant : (Fault.variableSubscript e).raised.isSubscriptError = true ∨
        e.Misreads (Fault.variableSubscript e).raised := isSubscriptError_or_misreads rfl id
    cases e with
    | lit value =>
      rw [evaluateInt]
      split
      · exact .ok _
      · exact .error (isSubscriptError_or_misreads rfl id)
      · next cause hcause => exact .error (.inr (.conversion (self_mem_nodes _) hcause))
    | unary op operand =>
      cases op with
      | neg =>
        rw [evaluateInt]
        apply (hparts operand List.mem_cons_self).bind
        exact fun _ _ => .pure _
      | not => exact .error hconstant
    | binary op left right =>
      rw [evaluateInt]
      apply (hparts left (by simp [parts])).bind
      intro _ _
      apply (hparts right (by simp [parts])).bind
      intro _ _
      cases op with
      | add | sub | mul => exact .pure _
      | _ => exact .error hconstant
    | ref _ _ | call _ _ | cond _ _ _ | der _ | pre _ | foreign _ => exact .error hconstant

/-! ### Scalar names -/

/-- What keeps an expression from being read in scalar names. -/
inductive Fails (e : Expr) : Fault → Prop
  | foreign {kind : String} (hnode : .foreign kind ∈ e.nodes) : Fails e (.unknownNode kind)
  | subscript {name : String} {subscripts : List Expr} {s : Expr} {fault : Fault}
    (hnode : .ref name subscripts ∈ e.nodes) (hs : s ∈ subscripts)
    (hfault : s.evaluateInt = .error fault) : Fails e fault
  | element {name : String} {subscripts : List Expr} {indices : List Int} {n : Int}
    (hnode : .ref name subscripts ∈ e.nodes)
    (hindices : subscripts.mapM evaluateInt = .ok indices) (hn : n ∈ indices)
    (hwritable : Causality.isWritable n = false) : Fails e .unwritableInteger

theorem Fails.of_part (hpart : part ∈ e.parts) (h : part.Fails fault) : e.Fails fault := by
  have hmem : ∀ n ∈ part.nodes, n ∈ e.nodes :=
    fun n hn => mem_nodes_iff.mpr (.inr ⟨part, hpart, hn⟩)
  cases h with
  | foreign hnode => exact .foreign (hmem _ hnode)
  | subscript hnode hs hfault => exact .subscript (hmem _ hnode) hs hfault
  | element hnode hindices hn hwritable => exact .element (hmem _ hnode) hindices hn hwritable

theorem resolveAll_eq (es : List Expr) : resolveAll es = es.mapM resolve := by
  induction es with
  | nil => rfl
  | cons e rest ih => rw [resolveAll, ih, List.mapM_cons]

theorem element_fails {indices : List Int} :
    FailsOnly (fun fault => fault = .unwritableInteger ∧
      ∃ n ∈ indices, Causality.isWritable n = false) (element name indices) := by
  unfold element
  split
  · exact .ok _
  · next hall => exact .error ⟨rfl, by simpa using hall⟩

theorem resolve_fails (e : Expr) : FailsOnly e.Fails e.resolve := by
  induction e using partsInduction with
  | _ e ih =>
    have hparts : ∀ part ∈ e.parts, FailsOnly e.Fails part.resolve :=
      fun part hpart => (ih part hpart).imp fun _ => .of_part hpart
    cases e with
    | lit value => exact .ok _
    | ref name subscripts =>
      rw [resolve]
      split
      · exact .ok _
      · apply FailsOnly.bind
        · exact FailsOnly.mapM fun s hs => ⟨fun _ hfault => .subscript (self_mem_nodes _) hs hfault⟩
        · intro indices hindices
          apply element_fails.imp
          rintro _ ⟨rfl, n, hn, hwritable⟩
          exact .element (self_mem_nodes _) hindices hn hwritable
    | unary op operand | der operand | pre operand =>
      rw [resolve]
      apply (hparts operand List.mem_cons_self).bind
      exact fun _ _ => .pure _
    | binary op left right =>
      rw [resolve]
      apply (hparts left (by simp [parts])).bind
      intro _ _
      apply (hparts right (by simp [parts])).bind
      exact fun _ _ => .pure _
    | call function arguments =>
      rw [resolve, resolveAll_eq]
      apply (FailsOnly.mapM hparts).bind
      exact fun _ _ => .pure _
    | cond condition whenTrue whenFalse =>
      rw [resolve]
      apply (hparts condition (by simp [parts])).bind
      intro _ _
      apply (hparts whenTrue (by simp [parts])).bind
      intro _ _
      apply (hparts whenFalse (by simp [parts])).bind
      exact fun _ _ => .pure _
    | foreign kind => exact .error (.foreign (self_mem_nodes _))

theorem scalar_fails (e : Expr) : FailsOnly e.Fails (e.scalar Substitution.none) := by
  apply FailsOnly.bind
  · apply (substitute_fails _ _ e).imp
    rintro _ ⟨kind, hnode, rfl⟩
    exact .foreign hnode
  · intro r hr
    rw [eq_of_substitute_none hr]
    exact resolve_fails e

end Expr

end Causality
