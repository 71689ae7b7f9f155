import Causality.Model.Basic
import Causality.Proofs.Equation.Nodes

/-!
# What residuals are made of

A residual of a choice takes one residual from each body, so in the end it is made of simple
equations, and of the conditions that decide between them. `Equation.bundles` follows the merging
and keeps both. An equation has residuals exactly if every choice in it is complete and its bodies
assign the same variables, and then they are those of its bundles.
-/

namespace Causality

/-- A residual together with the conditions and the simple equations that are merged into it. -/
structure Bundle where
  assigned : Option String
  exprs : List Expr
  conditions : List Expr
  equations : List Equation

theorem headD_map {α β : Type} {f : List α → List β} (hf : f [] = []) (xss : List (List α)) :
    (xss.map f).headD [] = f (xss.headD []) := by
  cases xss with
  | nil => exact hf.symm
  | cons xs rest => rfl

/-- The look-up by a name leads to the item that has it, if no other one has. -/
theorem find?_name {α : Type} {name : α → Option String} {xs : List α} {a : α}
    (hnames : (xs.map name).Nodup) (ha : a ∈ xs) :
    (xs.find? fun other => name other = name a) = some a := by
  cases h : xs.find? fun other => name other = name a with
  | none =>
    have hnone := List.find?_eq_none.mp h a ha
    simp at hnone
  | some b =>
    have hname : name b = name a := by simpa using List.find?_some h
    rw [List.inj_on_of_nodup_map hnames (List.mem_of_find?_eq_some h) ha hname]

/-- What is merged with an item of the first body, for anything that has a name. -/
def partnerBy? {α : Type} (name : α → Option String) (byName : Bool) (a : α) (place : Nat)
    (body : List α) : Option α :=
  if byName then body.find? fun other => name other = name a else body[place]?

theorem mem_of_partnerBy? {α : Type} {name : α → Option String} {byName : Bool} {a b : α}
    {place : Nat} {body : List α} (h : partnerBy? name byName a place body = some b) :
    b ∈ body := by
  rw [partnerBy?] at h
  split_ifs at h
  · exact List.mem_of_find?_eq_some h
  · exact List.mem_of_getElem? h

namespace Bundle

def residual (b : Bundle) : Residual where
  assigned := b.assigned
  exprs := b.exprs
  multiplicity := b.equations.length

/-- The names are those of variables and all different. -/
def tellApart (names : List (Option String)) : Bool := !names.contains none && decide names.Nodup

/-- All that a bundle of the first body is merged with, the bundle itself included. -/
def partners (byName : Bool) (bodies : List (List Bundle)) (b : Bundle) (place : Nat) :
    List Bundle :=
  bodies.filterMap (partnerBy? (·.assigned) byName b place)

def join (conditions : List Expr) (assigned : Option String) (parts : List Bundle) : Bundle where
  assigned := assigned
  exprs := conditions ++ parts.flatMap (·.exprs)
  conditions := conditions ++ parts.flatMap (·.conditions)
  equations := parts.flatMap (·.equations)

def merge (conditions : List Expr) (bodies : List (List Bundle)) : List Bundle :=
  let first := bodies.headD []
  first.zipIdx.map fun (b, place) => join conditions b.assigned
    (partners (tellApart (first.map (·.assigned))) bodies b place)

variable {conditions : List Expr} {bodies : List (List Bundle)} {body : List Bundle}
  {b c m : Bundle} {byName : Bool} {place : Nat}

theorem partners_residual (byName : Bool) (bodies : List (List Bundle)) (b : Bundle)
    (place : Nat) :
    Residual.partners byName (bodies.map fun body => body.map residual) b.residual place =
      (partners byName bodies b place).map residual := by
  rw [Residual.partners, partners, List.filterMap_map, List.map_filterMap]
  refine List.filterMap_congr fun body _ => ?_
  cases byName with
  | true => exact List.find?_map
  | false => exact List.getElem?_map

theorem foldr_multiplicity (parts : List Bundle) :
    (parts.map residual).foldr (fun other n => other.multiplicity + n) 0 =
      (parts.flatMap (·.equations)).length := by
  induction parts with
  | nil => rfl
  | cons b rest ih =>
    rw [List.map_cons, List.foldr_cons, ih, List.flatMap_cons, List.length_append]
    rfl

theorem merge_residual (conditions : List Expr) (bodies : List (List Bundle)) :
    Residual.merge conditions (bodies.map fun body => body.map residual) =
      (merge conditions bodies).map residual := by
  have hnames : ((bodies.headD []).map residual).map (·.assigned) =
      (bodies.headD []).map (·.assigned) := List.map_map
  rw [Residual.merge, merge]
  dsimp only
  rw [headD_map List.map_nil, hnames, List.zipIdx_map, List.map_map, List.map_map]
  refine List.map_congr_left fun place _ => ?_
  have hparts := partners_residual (tellApart ((bodies.headD []).map (·.assigned))) bodies place.1
    place.2
  rw [tellApart] at hparts
  simp only [Function.comp_apply, Prod.map_fst, Prod.map_snd, id_eq, hparts, foldr_multiplicity,
    List.flatMap_map]
  rfl

theorem map_assigned_merge :
    (merge conditions bodies).map (·.assigned) = (bodies.headD []).map (·.assigned) := by
  simp only [merge, List.map_map]
  have hzip : (bodies.headD []).zipIdx.map (fun place => place.1.assigned) =
      ((bodies.headD []).zipIdx.map Prod.fst).map (·.assigned) := List.map_map.symm
  rw [List.zipIdx_map_fst] at hzip
  exact hzip

theorem mem_merge : m ∈ merge conditions bodies ↔
    ∃ b place, (bodies.headD [])[place]? = some b ∧ join conditions b.assigned
      (partners (tellApart ((bodies.headD []).map (·.assigned))) bodies b place) = m := by
  simp [merge, List.mem_zipIdx_iff_getElem?]

theorem tellApart_iff {names : List (Option String)} :
    tellApart names = true ↔ none ∉ names ∧ names.Nodup := by simp [tellApart]

theorem self_mem_partners (hb : (bodies.headD [])[place]? = some b) :
    b ∈ partners (tellApart ((bodies.headD []).map (·.assigned))) bodies b place := by
  cases bodies with
  | nil => cases hb
  | cons first others =>
    refine List.mem_filterMap.mpr ⟨first, List.mem_cons_self, ?_⟩
    rw [partnerBy?]
    split_ifs with happart
    · exact find?_name (tellApart_iff.mp happart).2 (List.mem_of_getElem? hb)
    · exact hb

end Bundle

mutual

def Equation.bundles : Equation → List Bundle
  | .simple lhs rhs =>
    [{ assigned := (Equation.simple lhs rhs).assignedName, exprs := [lhs, rhs], conditions := [],
       equations := [.simple lhs rhs] }]
  | .loop _ _ _ _ _ => []
  | .choice _ branches none =>
    Bundle.merge (branches.map (·.condition)) (Branch.bundles branches)
  | .choice _ branches (some otherwise) =>
    Bundle.merge (branches.map (·.condition))
      (Branch.bundles branches ++ [Equation.bundlesAll otherwise])
termination_by structural e => e

def Equation.bundlesAll : List Equation → List Bundle
  | [] => []
  | e :: rest => Equation.bundles e ++ Equation.bundlesAll rest
termination_by structural es => es

def Branch.bundles : List Branch → List (List Bundle)
  | [] => []
  | .mk _ body :: rest => Equation.bundlesAll body :: Branch.bundles rest
termination_by structural bs => bs

end

variable {kind : ChoiceKind} {branches : List Branch} {otherwise : Option (List Equation)}
  {conditions : List Expr} {rs : List Residual}

theorem Branch.bundles_eq (bs : List Branch) :
    Branch.bundles bs = (bs.map (·.body)).map Equation.bundlesAll := by
  induction bs with
  | nil => rfl
  | cons b rest ih =>
    obtain ⟨condition, body⟩ := b
    rw [Branch.bundles, ih, List.map_cons, List.map_cons, Branch.body]

theorem Branch.residuals_eq (bs : List Branch) :
    Branch.residuals bs = (bs.map (·.body)).mapM Equation.residualsAll := by
  induction bs with
  | nil => rfl
  | cons b rest ih =>
    obtain ⟨condition, body⟩ := b
    rw [Branch.residuals, ih, List.map_cons, List.mapM_cons, Branch.body]

namespace Equation

theorem bundlesAll_eq (es : List Equation) : bundlesAll es = es.flatMap bundles := by
  induction es with
  | nil => rfl
  | cons e rest ih => rw [bundlesAll, ih, List.flatMap_cons]

theorem bundles_choice (kind : ChoiceKind) (branches : List Branch)
    (otherwise : Option (List Equation)) : (choice kind branches otherwise).bundles =
      Bundle.merge (branches.map (·.condition))
        ((bodiesOf branches otherwise).map bundlesAll) := by
  cases otherwise with
  | none => simp [bundles, bodiesOf, Branch.bundles_eq]
  | some otherwise => simp [bundles, bodiesOf, Branch.bundles_eq]

/-- What holds of the bundle of a simple equation and passes from the bundles of the bodies to those
that they are merged into holds of all bundles. -/
theorem bundles_induction {P : Equation → Bundle → Prop}
    (simple : ∀ lhs rhs, ∀ b ∈ (simple lhs rhs).bundles, P (simple lhs rhs) b)
    (join : ∀ kind branches otherwise parts, ∀ b ∈ parts,
      (∀ c ∈ parts, ∃ body ∈ bodiesOf branches otherwise, ∃ e ∈ body, P e c) →
        P (choice kind branches otherwise)
          (Bundle.join (branches.map (·.condition)) b.assigned parts))
    (e : Equation) : ∀ b ∈ e.bundles, P e b := by
  induction e using Equation.inductionOn with
  | simple lhs rhs => exact simple lhs rhs
  | loop index start stop step body ih => exact List.forall_mem_nil _
  | choice kind branches otherwise ih =>
    intro m hm
    rw [bundles_choice] at hm
    obtain ⟨b, place, hb, rfl⟩ := Bundle.mem_merge.mp hm
    refine join kind branches otherwise _ b (Bundle.self_mem_partners hb) fun c hc => ?_
    obtain ⟨_, hbundles, hc⟩ := List.mem_filterMap.mp hc
    obtain ⟨body, hbody, rfl⟩ := List.mem_map.mp hbundles
    have hmem := mem_of_partnerBy? hc
    rw [bundlesAll_eq] at hmem
    obtain ⟨e, he, hmem⟩ := List.mem_flatMap.mp hmem
    exact ⟨body, hbody, e, he, ih body hbody e he c hmem⟩

def namesOf (body : List Equation) : List (Option String) := (bundlesAll body).map (·.assigned)

/-- A choice has the bodies it needs, and each assigns the variables that the first one assigns. -/
def IsBalanced : Equation → Prop
  | simple _ _ => True
  | loop _ _ _ _ _ => False
  | choice kind branches otherwise =>
    (choice kind branches otherwise).IsComplete ∧ ∀ body ∈ bodiesOf branches otherwise,
      (namesOf body).Perm (namesOf ((bodiesOf branches otherwise).headD []))

end Equation

/-- A bundle holds conditions and simple equations of an equation, and no expression besides. One of
the equations assigns the variable that the bundle stands for. -/
structure Bundle.IsMadeFrom (e : Equation) (b : Bundle) : Prop where
  exprs : b.exprs.Perm (b.conditions ++ b.equations.flatMap (·.exprs))
  conditions : ∀ c ∈ b.conditions, ∃ kind branches otherwise,
    .choice kind branches otherwise ∈ e.nodes ∧ c ∈ branches.map (·.condition)
  equations : ∀ q ∈ b.equations, q ∈ e.nodes ∧ q.isSimple = true
  assigned : ∃ q ∈ b.equations, q.assignedName = b.assigned

theorem Bundle.perm_join {parts : List Bundle}
    (h : ∀ c ∈ parts, c.exprs.Perm (c.conditions ++ c.equations.flatMap (·.exprs))) :
    (conditions ++ parts.flatMap (·.exprs)).Perm
      ((conditions ++ parts.flatMap (·.conditions)) ++
        (parts.flatMap (·.equations)).flatMap (·.exprs)) := by
  rw [List.append_assoc, List.flatMap_assoc]
  refine List.Perm.append_left _ ((List.Perm.flatMap_left parts h).trans ?_)
  exact (List.flatMap_append_perm parts (·.conditions)
    fun c => c.equations.flatMap (·.exprs)).symm

theorem Equation.isMadeFrom (e : Equation) : ∀ b ∈ e.bundles, b.IsMadeFrom e := by
  refine bundles_induction (fun lhs rhs b hb => ?_) (fun kind branches otherwise parts b hb h => ?_)
    e
  · obtain rfl := List.mem_singleton.mp hb
    exact ⟨.refl _, List.forall_mem_nil _, List.forall_mem_singleton.mpr ⟨self_mem_nodes _, rfl⟩,
      _, List.mem_singleton_self _, rfl⟩
  · constructor
    · refine Bundle.perm_join fun c hc => ?_
      obtain ⟨_, _, _, _, hmade⟩ := h c hc
      exact hmade.exprs
    · intro condition hcondition
      rcases List.mem_append.mp hcondition with hown | hpart
      · exact ⟨kind, branches, otherwise, self_mem_nodes _, hown⟩
      · obtain ⟨c, hc, hpart⟩ := List.mem_flatMap.mp hpart
        obtain ⟨body, hbody, e, he, hmade⟩ := h c hc
        obtain ⟨kind', branches', otherwise', hnode, hmem⟩ := hmade.conditions condition hpart
        exact ⟨kind', branches', otherwise', mem_nodes_of_body hbody he hnode, hmem⟩
    · intro q hq
      obtain ⟨c, hc, hq⟩ := List.mem_flatMap.mp hq
      obtain ⟨body, hbody, e, he, hmade⟩ := h c hc
      obtain ⟨hnode, hsimple⟩ := hmade.equations q hq
      exact ⟨mem_nodes_of_body hbody he hnode, hsimple⟩
    · obtain ⟨_, _, _, _, hmade⟩ := h b hb
      obtain ⟨q, hq, hassigned⟩ := hmade.assigned
      exact ⟨q, List.mem_flatMap.mpr ⟨b, hb, hq⟩, hassigned⟩

/-! ### When there are residuals -/

def Fault.isUnbalance : Fault → Bool
  | missingElse _ | elseInWhen _ | noBranches _ | unbalanced _ _ _ => true
  | _ => false

theorem Residual.unlike?_eq_none {first : List (Option String)} {others : List (List Residual)} :
    unlike? first others = none ↔ ∀ body ∈ others, (body.map (·.assigned)).Perm first := by
  simp [unlike?, List.find?_eq_none, List.isPerm_iff]

theorem Residual.balance_eq_ok {bodies : List (List Residual)} :
    balance kind conditions bodies = .ok rs ↔
      (∀ body ∈ bodies, (body.map (·.assigned)).Perm ((bodies.headD []).map (·.assigned))) ∧
        rs = merge conditions bodies := by
  have hbodies : (∀ body ∈ bodies,
      (body.map (·.assigned)).Perm ((bodies.headD []).map (·.assigned))) ↔
        unlike? ((bodies.headD []).map (·.assigned)) (bodies.drop 1) = none := by
    rw [unlike?_eq_none]
    cases bodies with
    | nil => simp
    | cons first others =>
      rw [List.forall_mem_cons]
      exact and_iff_right (.refl _)
  rw [hbodies, balance]
  split
  · next names hnames => simp only [hnames, reduceCtorEq, false_and]
  · next hnames =>
    rw [hnames, Except.ok.injEq]
    exact eq_comm.trans (and_iff_right rfl).symm

theorem Residual.balance_unbalance (kind : ChoiceKind) (conditions : List Expr)
    (bodies : List (List Residual)) :
    FailsOnly (fun fault => fault.isUnbalance = true) (balance kind conditions bodies) := by
  rw [balance]
  split
  · exact .error rfl
  · exact .ok _

namespace Equation

theorem residuals_of_complete (h : (choice kind branches otherwise).IsComplete) :
    (choice kind branches otherwise).residuals =
      (bodiesOf branches otherwise).mapM residualsAll >>=
        Residual.balance kind (branches.map (·.condition)) := by
  cases kind with
  | ifThen =>
    obtain ⟨hbranches, hotherwise⟩ := h
    obtain ⟨last, rfl⟩ := Option.isSome_iff_exists.mp hotherwise
    rw [residuals, if_neg (by simpa using hbranches), Branch.residuals_eq, bodiesOf,
      List.mapM_append]
    simp
  | whenThen =>
    obtain ⟨hbranches, rfl⟩ := h
    rw [residuals, if_neg (by simpa using hbranches), Branch.residuals_eq, bodiesOf,
      Option.toList_none, List.append_nil]

/-- The message shows the choice, or only says of which kind it is. -/
theorem residuals_of_incomplete (h : ¬ (choice kind branches otherwise).IsComplete) :
    ∃ fault : Fault, (choice kind branches otherwise).residuals = .error fault.raised ∧
      fault.isUnbalance = true ∧
        (fault.isWritable = false → (choice kind branches otherwise).isWritable = false) := by
  cases kind with
  | ifThen =>
    cases otherwise with
    | none => exact ⟨_, rfl, rfl, id⟩
    | some otherwise =>
      obtain rfl : branches = [] := by simpa [IsComplete] using h
      exact ⟨.noBranches .ifThen, rfl, rfl, fun hlong => by cases hlong⟩
  | whenThen =>
    cases otherwise with
    | none =>
      obtain rfl : branches = [] := by simpa [IsComplete] using h
      exact ⟨.noBranches .whenThen, rfl, rfl, fun hlong => by cases hlong⟩
    | some otherwise => exact ⟨_, rfl, rfl, id⟩

theorem residualsAll_eq (es : List Equation) :
    residualsAll es = (es.mapM residuals).map List.flatten := by
  induction es with
  | nil => rfl
  | cons e rest ih =>
    rw [residualsAll, ih, List.mapM_cons]
    cases e.residuals with
    | error fault => rfl
    | ok first => cases rest.mapM residuals <;> rfl

/-- An equation has residuals exactly if every choice in it is balanced. They are the residuals of
its bundles. -/
theorem residuals_eq_ok {e : Equation} : e.residuals = .ok rs ↔
    (∀ n ∈ e.nodes, n.IsBalanced) ∧ rs = e.bundles.map Bundle.residual := by
  induction e using Equation.inductionOn generalizing rs with
  | simple lhs rhs => simp [residuals, nodes, IsBalanced, bundles, Bundle.residual, eq_comm]
  | loop index start stop step body ih => simp [residuals, nodes, IsBalanced]
  | choice kind branches otherwise ih =>
    have hbody : ∀ body ∈ bodiesOf branches otherwise, ∀ rs, residualsAll body = .ok rs ↔
        (∀ e ∈ body, ∀ n ∈ e.nodes, n.IsBalanced) ∧
          rs = (bundlesAll body).map Bundle.residual := by
      intro body hbody rs
      rw [residualsAll_eq, map_eq_ok, bundlesAll_eq, List.map_flatMap, List.flatMap_def]
      simp only [mapM_eq_ok_iff fun e he _ => ih body hbody e he]
      constructor
      · rintro ⟨_, ⟨hbalanced, rfl⟩, rfl⟩
        exact ⟨hbalanced, rfl⟩
      · rintro ⟨hbalanced, rfl⟩
        exact ⟨_, ⟨hbalanced, rfl⟩, rfl⟩
    have hnames : ∀ body, ((bundlesAll body).map Bundle.residual).map (·.assigned) =
        namesOf body := fun _ => List.map_map
    have hmerge := Bundle.merge_residual (branches.map (·.condition))
      ((bodiesOf branches otherwise).map bundlesAll)
    rw [List.map_map, Function.comp_def] at hmerge
    rw [forall_nodes_choice, IsBalanced, bundles_choice, ← hmerge]
    by_cases hcomplete : (choice kind branches otherwise).IsComplete
    · rw [residuals_of_complete hcomplete, bind_eq_ok]
      simp only [mapM_eq_ok_iff hbody, Residual.balance_eq_ok]
      constructor
      · rintro ⟨_, ⟨hbalanced, rfl⟩, hperm, rfl⟩
        rw [List.forall_mem_map, headD_map rfl] at hperm
        simp only [hnames] at hperm
        exact ⟨⟨⟨hcomplete, hperm⟩, hbalanced⟩, rfl⟩
      · rintro ⟨⟨⟨_, hperm⟩, hbalanced⟩, rfl⟩
        refine ⟨_, ⟨hbalanced, rfl⟩, ?_, rfl⟩
        rw [List.forall_mem_map, headD_map rfl]
        simp only [hnames]
        exact hperm
    · obtain ⟨fault, hfault, _⟩ := residuals_of_incomplete hcomplete
      simp [hfault, hcomplete]

/-- A choice in the equation lacks a body that it needs, or has one that it must not have, and
cannot be written. -/
def Illegible (e : Equation) : Prop := ∃ n ∈ e.nodes, ¬ n.IsComplete ∧ n.isWritable = false

/-- Without loops, the bodies of a choice are all that can be wrong, and that is reported unless the
choice cannot be written. -/
theorem LoopFree.unbalance {e : Equation} (h : e.LoopFree) :
    FailsOnly (fun fault => fault.isUnbalance = true ∨ fault = .unwritableInteger ∧ e.Illegible)
      e.residuals := by
  induction e using Equation.inductionOn with
  | simple lhs rhs => exact .ok _
  | loop index start stop step body ih => cases h _ (self_mem_nodes _)
  | choice kind branches otherwise ih =>
    rw [LoopFree, forall_nodes_choice] at h
    by_cases hcomplete : (choice kind branches otherwise).IsComplete
    · rw [residuals_of_complete hcomplete]
      apply FailsOnly.bind
      · apply FailsOnly.mapM
        intro body hbody
        rw [residualsAll_eq]
        apply FailsOnly.map
        apply FailsOnly.mapM
        intro e he
        apply (ih body hbody e he (h.2 body hbody e he)).imp
        rintro fault (hunbalance | ⟨rfl, n, hn, hwrong⟩)
        · exact .inl hunbalance
        · exact .inr ⟨rfl, n, mem_nodes_of_body hbody he hn, hwrong⟩
      · exact fun _ _ => (Residual.balance_unbalance _ _ _).imp fun _ => .inl
    · obtain ⟨fault, hfault, hunbalance, hlong⟩ := residuals_of_incomplete hcomplete
      rw [hfault]
      apply FailsOnly.error
      obtain hraised | ⟨hraised, hwritable⟩ := fault.raised_eq_or
      · rw [hraised]
        exact .inl hunbalance
      · rw [hraised]
        exact .inr ⟨rfl, _, self_mem_nodes _, hcomplete, hlong hwritable⟩

end Equation

end Causality
