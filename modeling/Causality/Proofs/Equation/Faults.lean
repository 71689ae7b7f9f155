import Causality.Proofs.Equation.Unrolled

/-!
# What goes wrong with an equation

Expanding an equation fails exactly if something fails that is met when its loops are unrolled: a
step of zero, a value that no label can hold, or an expression that has no scalar form. Splitting an
expanded equation fails with errors about shapes, as far as they can be written.
-/

namespace Causality

variable {vars : List Variable} {index label : String} {i : Int} {fault : Fault}

/-! ### The size of a copy -/

mutual

theorem Equation.length_nodes_instantiate (e : Equation) :
    (e.instantiate index i).nodes.length = e.nodes.length := by
  match e with
  | .simple lhs rhs => rfl
  | .loop inner start stop step body =>
    rw [Equation.instantiate]
    split_ifs
    · rfl
    · simp only [Equation.nodes, List.length_cons, Equation.length_nodesAll_instantiateAll body]
  | .choice kind branches none =>
    simp only [Equation.instantiate, Equation.nodes, List.length_cons,
      Branch.length_nodesAll_instantiateAll branches]
  | .choice kind branches (some otherwise) =>
    simp only [Equation.instantiate, Equation.nodes, List.length_cons, List.length_append,
      Branch.length_nodesAll_instantiateAll branches,
      Equation.length_nodesAll_instantiateAll otherwise]
termination_by structural e

theorem Equation.length_nodesAll_instantiateAll (es : List Equation) :
    (Equation.nodesAll (Equation.instantiateAll index i es)).length =
      (Equation.nodesAll es).length := by
  match es with
  | [] => rfl
  | e :: rest =>
    simp only [Equation.instantiateAll, Equation.nodesAll, List.length_append,
      Equation.length_nodes_instantiate e, Equation.length_nodesAll_instantiateAll rest]
termination_by structural es

theorem Branch.length_nodesAll_instantiateAll (bs : List Branch) :
    (Branch.nodesAll (Branch.instantiateAll index i bs)).length =
      (Branch.nodesAll bs).length := by
  match bs with
  | [] => rfl
  | .mk condition body :: rest =>
    simp only [Branch.instantiateAll, Branch.nodesAll, List.length_append,
      Equation.length_nodesAll_instantiateAll body, Branch.length_nodesAll_instantiateAll rest]
termination_by structural bs

end

/-! ### Foreign nodes in a copy -/

mutual

theorem Expr.Known.instantiate (x : Expr) (h : x.Known) : (x.instantiate index i).Known := by
  match x with
  | .lit value => trivial
  | .ref name [] =>
    rw [Expr.instantiate]
    split_ifs
    · trivial
    · exact h
  | .ref name (s :: rest) =>
    exact ⟨Expr.Known.instantiate s h.1, Expr.KnownAll.instantiate rest h.2⟩
  | .unary op operand => exact Expr.Known.instantiate operand h
  | .binary op left right =>
    exact ⟨Expr.Known.instantiate left h.1, Expr.Known.instantiate right h.2⟩
  | .call function arguments => exact Expr.KnownAll.instantiate arguments h
  | .cond condition whenTrue whenFalse =>
    exact ⟨Expr.Known.instantiate condition h.1, Expr.Known.instantiate whenTrue h.2.1,
      Expr.Known.instantiate whenFalse h.2.2⟩
  | .der operand => exact Expr.Known.instantiate operand h
  | .pre operand => exact Expr.Known.instantiate operand h
  | .foreign kind => exact h.elim
termination_by structural x

theorem Expr.KnownAll.instantiate (xs : List Expr) (h : Expr.KnownAll xs) :
    Expr.KnownAll (Expr.instantiateAll index i xs) := by
  match xs with
  | [] => trivial
  | x :: rest => exact ⟨Expr.Known.instantiate x h.1, Expr.KnownAll.instantiate rest h.2⟩
termination_by structural xs

end

mutual

theorem Equation.known_instantiate (e : Equation) (h : ∀ x ∈ e.exprs, x.Known) :
    ∀ x ∈ (e.instantiate index i).exprs, x.Known := by
  match e with
  | .simple lhs rhs =>
    obtain ⟨hl, hr⟩ := List.forall_mem_cons.mp h
    exact List.forall_mem_cons.mpr ⟨hl.instantiate, List.forall_mem_singleton.mpr
      (List.forall_mem_singleton.mp hr).instantiate⟩
  | .loop inner start stop step body =>
    rw [Equation.instantiate]
    split_ifs
    · exact h
    · exact Equation.known_instantiateAll body h
  | .choice kind branches none => exact Branch.known_instantiateAll branches h
  | .choice kind branches (some otherwise) =>
    obtain ⟨hbranches, hotherwise⟩ := List.forall_mem_append.mp h
    exact List.forall_mem_append.mpr ⟨Branch.known_instantiateAll branches hbranches,
      Equation.known_instantiateAll otherwise hotherwise⟩
termination_by structural e

theorem Equation.known_instantiateAll (es : List Equation)
    (h : ∀ x ∈ Equation.exprsAll es, x.Known) :
    ∀ x ∈ Equation.exprsAll (Equation.instantiateAll index i es), x.Known := by
  match es with
  | [] => exact h
  | e :: rest =>
    obtain ⟨he, hrest⟩ := List.forall_mem_append.mp h
    exact List.forall_mem_append.mpr
      ⟨Equation.known_instantiate e he, Equation.known_instantiateAll rest hrest⟩
termination_by structural es

theorem Branch.known_instantiateAll (bs : List Branch) (h : ∀ x ∈ Branch.exprsAll bs, x.Known) :
    ∀ x ∈ Branch.exprsAll (Branch.instantiateAll index i bs), x.Known := by
  match bs with
  | [] => exact h
  | .mk condition body :: rest =>
    obtain ⟨hcondition, hrest⟩ := List.forall_mem_cons.mp h
    obtain ⟨hbody, hrest⟩ := List.forall_mem_append.mp hrest
    exact List.forall_mem_cons.mpr ⟨hcondition.instantiate, List.forall_mem_append.mpr
      ⟨Equation.known_instantiateAll body hbody, Branch.known_instantiateAll rest hrest⟩⟩
termination_by structural bs

end

namespace Equation

variable {e f : Equation} {body : List Equation} {parts ls : List Labelled} {P : Fault → Prop}

theorem Reaches.known (h : e.Reaches f) (he : ∀ x ∈ e.exprs, x.Known) : ∀ x ∈ f.exprs, x.Known := by
  induction h with
  | self e => exact he
  | round k hrange hmem _ ih =>
    exact ih (known_instantiate _ fun x hx => he x (mem_exprsAll.mpr ⟨_, hmem, hx⟩))
  | inside hbody hmem _ ih =>
    exact ih fun x hx => he x (mem_exprs_choice.mpr (.inr ⟨_, hbody, _, hmem, hx⟩))

theorem mem_exprs_of_heads {x : Expr} (hx : x ∈ e.heads) : x ∈ e.exprs := by
  cases e with
  | simple lhs rhs => exact hx
  | loop index start stop step body => cases hx
  | choice kind branches otherwise => exact mem_exprs_choice.mpr (.inl hx)

theorem Unrolls.known {x : Expr} (h : e.Unrolls x) (he : ∀ x ∈ e.exprs, x.Known) : x.Known := by
  obtain ⟨f, hf, hx⟩ := h
  exact hf.known he x (mem_exprs_of_heads hx)

/-! ### Smaller copies -/

theorem length_nodes_le_of_mem (he : e ∈ body) : e.nodes.length ≤ (nodesAll body).length := by
  rw [nodesAll_eq, List.flatMap_def]
  exact (List.sublist_flatten_of_mem (List.mem_map_of_mem he)).length_le

theorem length_nodes_lt_loop {start stop step : Int} (he : e ∈ body) :
    e.nodes.length < (loop index start stop step body).nodes.length := by
  rw [nodes, List.length_cons]
  exact Nat.lt_succ_of_le (length_nodes_le_of_mem he)

theorem length_nodes_lt_choice {kind : ChoiceKind} {branches : List Branch}
    {otherwise : Option (List Equation)} (hbody : body ∈ bodiesOf branches otherwise)
    (he : e ∈ body) : e.nodes.length < (choice kind branches otherwise).nodes.length := by
  rw [nodes_choice, List.length_cons, List.flatMap_def]
  have hbodies := (List.sublist_flatten_of_mem
    (List.mem_map_of_mem (f := nodesAll) hbody)).length_le
  exact Nat.lt_succ_of_le ((length_nodes_le_of_mem he).trans hbodies)

/-! ### Expansion -/

/-- Why an equation cannot be expanded. What is at fault is met when its loops are unrolled. -/
inductive Stops (e : Equation) : Fault → Prop
  | zeroStep {index : String} {start stop : Int} {body : List Equation}
    (h : e.Reaches (loop index start stop 0 body)) : Stops e .zeroRangeStep
  | label {index : String} {start stop step : Int} {body : List Equation}
    (h : e.Reaches (loop index start stop step body)) (hbody : body ≠ []) (k : Nat)
    (hrange : if 0 < step then start + k * step ≤ stop else stop ≤ start + k * step)
    (hwritable : Causality.isWritable (start + k * step) = false) : Stops e .unwritableInteger
  | expression {x : Expr} {fault : Fault} (hx : e.Unrolls x) (hfault : x.Fails fault) :
    Stops e fault

theorem Stops.lift (h : f.Stops fault) (hlift : ∀ n, f.Reaches n → e.Reaches n) :
    e.Stops fault := by
  cases h with
  | zeroStep h => exact .zeroStep (hlift _ h)
  | label h hbody k hrange hwritable => exact .label (hlift _ h) hbody k hrange hwritable
  | expression hx hfault =>
    obtain ⟨n, hn, hx⟩ := hx
    exact .expression ⟨n, hlift n hn, hx⟩ hfault

theorem mem_of_mem_numbered {l : Labelled} {k : Nat} (hl : l ∈ numbered label k body) :
    l.equation ∈ body := by
  obtain ⟨place, hplace, rfl⟩ := List.mem_map.mp hl
  exact List.fst_mem_of_mem_zipIdx hplace

theorem expandEach_fails (h : ∀ l ∈ parts, FailsOnly P (l.equation.expand l.label)) :
    FailsOnly P (expandEach parts) := by
  apply (FailsOnly.mapM h).bind
  exact fun _ _ => .pure _

theorem expandBody_fails (h : ∀ e ∈ body, ∀ label, FailsOnly P (e.expand label)) :
    FailsOnly P (expandBody body) := by
  apply FailsOnly.bind
  · exact expandEach_fails fun l hl => h l.equation (mem_of_mem_numbered hl) l.label
  · exact fun _ _ => .pure _

theorem scalar_stops {x : Expr} (hx : x ∈ e.heads) :
    FailsOnly e.Stops (x.scalar Substitution.none) :=
  (Expr.scalar_fails x).imp fun _ => .expression ⟨e, .self e, hx⟩

theorem expand_stops_simple (lhs rhs : Expr) (label : String) :
    FailsOnly (simple lhs rhs).Stops ((simple lhs rhs).expand label) := by
  rw [expand, expandUnder]
  apply (scalar_stops List.mem_cons_self).bind
  intro _ _
  apply (scalar_stops (List.mem_cons_of_mem _ List.mem_cons_self)).bind
  exact fun _ _ => .pure _

/-- A loop is stopped by its step, by the label of a round, or by what stops a copy of its body. -/
theorem expand_stops_loop {index : String} {start stop step : Int}
    (hcopies : ∀ e ∈ body, ∀ i label,
      FailsOnly (e.instantiate index i).Stops ((e.instantiate index i).expand label)) :
    FailsOnly (loop index start stop step body).Stops
      ((loop index start stop step body).expand label) := by
  by_cases hstep : step = 0
  · subst hstep
    exact .error (.zeroStep (.self _))
  rw [expand_loop hstep]
  apply FailsOnly.bind
  · apply FailsOnly.mapM
    intro i hi
    obtain ⟨k, hk, rfl⟩ := List.mem_map.mp hi
    have hrange := (Progression.lt_count_upTo hstep k).mp (List.mem_range.mp hk)
    apply FailsOnly.bind
    · apply FailsOnly.bind
      · constructor
        intro fault hfault
        obtain ⟨⟨hbody, hwritable⟩, rfl⟩ := roundLabel_eq_error.mp hfault
        exact .label (.self _) hbody k hrange hwritable
      · exact fun _ _ => .pure _
    · intro parts hparts
      obtain ⟨text, _, hparts⟩ := bind_eq_ok.mp hparts
      obtain rfl := pure_eq_ok.mp hparts
      apply expandEach_fails
      intro l hl
      obtain ⟨e, he, hcopy⟩ := List.mem_map.mp (mem_of_mem_numbered hl)
      rw [← hcopy]
      exact (hcopies e he _ l.label).imp fun _ h => h.lift fun _ => .round k hrange he
  · exact fun _ _ => .pure _

/-- A choice is stopped by a condition or by what stops one of its bodies. -/
theorem expand_stops_choice {kind : ChoiceKind} {branches : List Branch}
    {otherwise : Option (List Equation)}
    (hbodies : ∀ body ∈ bodiesOf branches otherwise, ∀ e ∈ body, ∀ label,
      FailsOnly e.Stops (e.expand label)) :
    FailsOnly (choice kind branches otherwise).Stops
      ((choice kind branches otherwise).expand label) := by
  have hbody : ∀ body ∈ bodiesOf branches otherwise,
      FailsOnly (choice kind branches otherwise).Stops (expandBody body) := by
    intro body hbody
    apply expandBody_fails
    intro e he label
    exact (hbodies body hbody e he label).imp fun _ h => h.lift fun _ => .inside hbody he
  rw [expand_choice]
  apply FailsOnly.bind
  · apply FailsOnly.mapM
    intro b hb
    apply (scalar_stops (List.mem_map_of_mem hb)).bind
    intro _ _
    apply (hbody b.body (List.mem_append_left _ (List.mem_map_of_mem hb))).bind
    exact fun _ _ => .pure _
  · intro _ _
    apply FailsOnly.bind
    · cases otherwise with
      | none => exact .pure _
      | some otherwise =>
        apply (hbody otherwise (List.mem_append_right _ List.mem_cons_self)).bind
        exact fun _ _ => .pure _
    · exact fun _ _ => .pure _

/-- By induction on the number of equations inside, which the values of the indices do not
change. -/
theorem expand_stops (e : Equation) (label : String) : FailsOnly e.Stops (e.expand label) := by
  induction hn : e.nodes.length using Nat.strongRecOn generalizing e label with
  | _ n ih =>
    subst hn
    cases e with
    | simple lhs rhs => exact expand_stops_simple lhs rhs label
    | loop index start stop step body =>
      apply expand_stops_loop
      intro e he i label
      refine ih _ ?_ _ label rfl
      rw [length_nodes_instantiate]
      exact length_nodes_lt_loop he
    | choice kind branches otherwise =>
      apply expand_stops_choice
      exact fun body hbody e he label => ih _ (length_nodes_lt_choice hbody he) e label rfl

/-- What is at fault in the unrolled equation is always met. -/
theorem Stops.expand_ne_ok (h : e.Stops fault) : e.expand label ≠ .ok ls := by
  intro hls
  cases h with
  | zeroStep h =>
    obtain ⟨_, _, hpart, _⟩ := h.expands hls
    cases hpart
  | @label _ _ _ step _ h hbody k hrange hwritable =>
    obtain ⟨_, _, hpart, _⟩ := h.expands hls
    have hstep : step ≠ 0 := by
      rintro rfl
      cases hpart
    obtain ⟨_, hlabel, _⟩ := expand_round hpart (mem_values_upTo hstep k hrange)
    rcases hlabel with hempty | hlabel
    · exact hbody hempty
    · exact Bool.false_ne_true (hwritable.symm.trans hlabel)
  | expression hx hfault =>
    obtain ⟨_, _, _, _, hscalar⟩ := hx.exists_scalar hls
    exact hfault.scalar_ne_ok hscalar

end Equation

/-! ### Splitting -/

mutual

/-- Only the simple equations inside are split. -/
theorem Equation.failsOnly_split {P : Fault → Prop} (e : Equation)
    (h : ∀ lhs rhs, .simple lhs rhs ∈ e.nodes → FailsOnly P (splitSimple vars label lhs rhs)) :
    FailsOnly P (e.split vars label) := by
  match e with
  | .simple lhs rhs => exact h lhs rhs List.mem_cons_self
  | .loop _ _ _ _ _ => exact .ok _
  | .choice kind branches none =>
    rw [Equation.split]
    apply (Branch.failsOnly_splitAll branches fun lhs rhs hnode =>
      h lhs rhs (List.mem_cons_of_mem _ hnode)).bind
    exact fun _ _ => .pure _
  | .choice kind branches (some otherwise) =>
    rw [Equation.split]
    split
    · exact .ok _
    · apply (Branch.failsOnly_splitAll branches fun lhs rhs hnode =>
        h lhs rhs (List.mem_cons_of_mem _ (List.mem_append_left _ hnode))).bind
      intro _ _
      apply (Equation.failsOnly_splitAll otherwise fun lhs rhs hnode =>
        h lhs rhs (List.mem_cons_of_mem _ (List.mem_append_right _ hnode))).bind
      exact fun _ _ => .pure _
termination_by structural e

theorem Equation.failsOnly_splitAll {P : Fault → Prop} (es : List Equation)
    (h : ∀ lhs rhs, .simple lhs rhs ∈ Equation.nodesAll es →
      FailsOnly P (splitSimple vars label lhs rhs)) :
    FailsOnly P (Equation.splitAll vars label es) := by
  match es with
  | [] => exact .ok _
  | e :: rest =>
    rw [Equation.splitAll]
    apply (Equation.failsOnly_split e fun lhs rhs hnode =>
      h lhs rhs (List.mem_append_left _ hnode)).bind
    intro _ _
    apply (Equation.failsOnly_splitAll rest fun lhs rhs hnode =>
      h lhs rhs (List.mem_append_right _ hnode)).bind
    exact fun _ _ => .pure _
termination_by structural es

theorem Branch.failsOnly_splitAll {P : Fault → Prop} (bs : List Branch)
    (h : ∀ lhs rhs, .simple lhs rhs ∈ Branch.nodesAll bs →
      FailsOnly P (splitSimple vars label lhs rhs)) :
    FailsOnly P (Branch.splitAll vars label bs) := by
  match bs with
  | [] => exact .ok _
  | .mk condition body :: rest =>
    rw [Branch.splitAll]
    apply (Equation.failsOnly_splitAll body fun lhs rhs hnode =>
      h lhs rhs (List.mem_append_left _ hnode)).bind
    intro _ _
    apply (Branch.failsOnly_splitAll rest fun lhs rhs hnode =>
      h lhs rhs (List.mem_append_right _ hnode)).bind
    exact fun _ _ => .pure _
termination_by structural bs

end

/-- The sides of an equation that is not split into its elements, for the reason given, cannot be
written in the message. -/
theorem splitSimple_fails {lhs rhs : Expr} (hl : lhs.Known) (hr : rhs.Known)
    (hshapes : ∀ v ∈ vars, ∀ shape, v.shape = some shape → shape.all Whole.isWritable = true) :
    FailsOnly (fun fault => fault.isSubscriptError = true ∨
      fault = .unwritableInteger ∧ (Equation.simple lhs rhs).isWritable = false)
      (splitSimple vars label lhs rhs) := by
  have hraised : ∀ fault : Fault, fault.isSubscriptError = true →
      (fault.isWritable = false → (Equation.simple lhs rhs).isWritable = false) →
      fault.raised.isSubscriptError = true ∨
        fault.raised = .unwritableInteger ∧ (Equation.simple lhs rhs).isWritable = false := by
    intro fault hfault hlong
    obtain hraised | ⟨hraised, hwritable⟩ := fault.raised_eq_or
    · rw [hraised]
      exact .inl hfault
    · exact .inr ⟨hraised, hlong hwritable⟩
  unfold splitSimple
  split
  · exact .ok _
  · next first shape others harrays =>
    have hwritable : ∀ array ∈ (first, shape) :: others,
        array.2.all Whole.isWritable = true := by
      rw [← harrays]
      rintro ⟨name, shape⟩ hmem
      obtain ⟨_, v, hv, hshape⟩ := mem_arraysOf.mp hmem
      exact hshapes v (declaredAs?_eq_some hv).1 shape hshape
    dsimp only
    split
    · refine .error (hraised _ rfl fun hlong => ?_)
      obtain hsides | harray := Bool.and_eq_false_iff.mp hlong
      · exact hsides
      · obtain ⟨array, hmem, hshape⟩ := List.all_eq_false.mp harray
        exact absurd (hwritable array hmem) hshape
    · split
      · exact .error (hraised _ rfl id)
      · apply FailsOnly.mapM
        intro indices _
        obtain ⟨l, hl⟩ := Expr.Known.exists_substitute _ true lhs hl
        obtain ⟨r, hr⟩ := Expr.Known.exists_substitute _ true rhs hr
        rw [hl, hr]
        exact .pure _

end Causality
