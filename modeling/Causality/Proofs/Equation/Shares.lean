import Causality.Proofs.Equation.Balance
import Causality.Proofs.Equation.Places
import Mathlib.Algebra.GroupWithZero.Nat

/-!
# Shares of residuals

Each residual comes from a part of its equation. Merging residuals joins their parts. No simple
equation is lost or goes into two parts, since the bodies of a balanced choice have residuals of the
same names, so that each of them is the partner of exactly one residual of the first body.
-/

namespace Causality

variable {es : List Equation} {whole whole' : List Placed}

/-! ### Partners -/

section Partners

variable {α β : Type} {name : α → Option String} {bodies : List (List α)} {body : List α} {a b : α}

theorem partnerBy?_map (name : α → Option String) (f : β → α) (byName : Bool) (b : β) (place : Nat)
    (body : List β) : (partnerBy? (name ∘ f) byName b place body).map f =
      partnerBy? name byName (f b) place (body.map f) := by
  cases byName with
  | true => exact (List.find?_map (p := fun other => name other = name (f b))).symm
  | false => exact List.getElem?_map.symm

theorem flatMap_getElem? (body : List α) :
    (List.range body.length).flatMap (fun place => body[place]?.toList) = body := by
  induction body with
  | nil => rfl
  | cons a rest ih =>
    rw [List.length_cons, List.range_succ_eq_map, List.flatMap_cons, List.flatMap_map]
    exact congrArg (a :: ·) ih

/-- Each item of a body with the names of the first one is the partner of one item of that. -/
theorem perm_partners {first : List α} (h : (body.map name).Perm (first.map name)) :
    (first.zipIdx.flatMap fun p => (partnerBy? name (Bundle.tellApart (first.map name)) p.1 p.2
      body).toList).Perm body := by
  cases happart : Bundle.tellApart (first.map name) with
  | true =>
    have hnodup := h.nodup_iff.mpr (Bundle.tellApart_iff.mp happart).2
    let named := fun n => (body.find? fun other => name other = n).toList
    calc first.zipIdx.flatMap (fun p => named (name p.1))
      _ = (first.zipIdx.map Prod.fst).flatMap fun a => named (name a) := by rw [List.flatMap_map]
      _ = (first.map name).flatMap named := by rw [List.zipIdx_map_fst, List.flatMap_map]
      List.Perm _ ((body.map name).flatMap named) := h.symm.flatMap_right named
      _ = body.flatMap fun a => [a] := by
        rw [List.flatMap_map]
        refine List.flatMap_congr fun a ha => ?_
        exact congrArg Option.toList (find?_name hnodup ha)
      _ = body := List.flatMap_singleton' body
  | false =>
    have hlength : first.length = body.length := by simpa using h.length_eq.symm
    refine .of_eq ?_
    calc first.zipIdx.flatMap (fun p => body[p.2]?.toList)
      _ = (first.zipIdx.map Prod.snd).flatMap fun place => body[place]?.toList := by
        rw [List.flatMap_map]
      _ = (List.range body.length).flatMap fun place => body[place]?.toList := by
        rw [List.zipIdx_map_snd, hlength, List.range_eq_range']
      _ = body := flatMap_getElem? body

theorem perm_partnersAll {first : List α}
    (h : ∀ body ∈ bodies, (body.map name).Perm (first.map name)) :
    (first.zipIdx.flatMap fun p => bodies.filterMap
      (partnerBy? name (Bundle.tellApart (first.map name)) p.1 p.2)).Perm bodies.flatten := by
  induction bodies with
  | nil => simp
  | cons body rest ih =>
    rw [List.forall_mem_cons] at h
    have hcons : ∀ p : α × Nat, (body :: rest).filterMap
        (partnerBy? name (Bundle.tellApart (first.map name)) p.1 p.2) =
          (partnerBy? name (Bundle.tellApart (first.map name)) p.1 p.2 body).toList ++
            rest.filterMap (partnerBy? name (Bundle.tellApart (first.map name)) p.1 p.2) := by
      intro p
      rw [List.filterMap_cons]
      cases partnerBy? name (Bundle.tellApart (first.map name)) p.1 p.2 body <;> rfl
    simp only [hcons, List.flatten_cons]
    exact (List.flatMap_append_perm _ _ _).symm.trans ((perm_partners h.1).append (ih h.2))

end Partners

/-! ### Shares -/

/-- The expressions of the equation itself: both sides, or the conditions of a choice. -/
def Equation.ownExprs : Equation → List Expr
  | simple lhs rhs => [lhs, rhs]
  | loop _ _ _ _ _ => []
  | choice _ branches _ => branches.map (·.condition)

/-- A bundle with the equations that it comes from. -/
structure Share where
  bundle : Bundle
  nodes : List Placed

namespace Share

structure IsSound (s : Share) : Prop where
  ne_nil : s.nodes ≠ []
  exprs : s.bundle.exprs = s.nodes.flatMap (·.equation.ownExprs)
  length : s.bundle.equations.length = s.nodes.countP (·.isSimple)

def simples (s : Share) : List Placed := s.nodes.filter (·.isSimple)

def join (e : Equation) (assigned : Option String) (parts : List Share) : Share where
  bundle := Bundle.join e.ownExprs assigned (parts.map (·.bundle))
  nodes := ⟨[], e⟩ :: parts.flatMap (·.nodes)

def assigned (s : Share) : Option String := s.bundle.assigned

def partners (lists : List (List Share)) (s : Share) (place : Nat) : List Share :=
  lists.filterMap
    (partnerBy? assigned (Bundle.tellApart ((lists.headD []).map assigned)) s place)

def merge (e : Equation) (lists : List (List Share)) : List Share :=
  (lists.headD []).zipIdx.map fun p => join e p.1.assigned (partners lists p.1 p.2)

/-- The shares of the bundles divide the simple equations up. -/
structure Divide (whole : List Placed) (bundles : List Bundle) (shares : List Share) : Prop where
  bundles : shares.map (·.bundle) = bundles
  isPart : ∀ s ∈ shares, Placed.IsPart whole s.nodes
  sound : ∀ s ∈ shares, s.IsSound
  simples : (shares.flatMap simples).Perm (whole.filter (·.isSimple))

variable {bundles bundles' : List Bundle} {shares shares' parts : List Share}
  {lists : List (List Share)} {s : Share} {place : Nat}

theorem map_bundle_partners (lists : List (List Share)) (s : Share) (place : Nat) :
    (partners lists s place).map (·.bundle) = Bundle.partners
      (Bundle.tellApart ((lists.headD []).map assigned)) (lists.map (List.map (·.bundle)))
        s.bundle place := by
  rw [partners, Bundle.partners, List.map_filterMap, List.filterMap_map]
  exact List.filterMap_congr fun body _ => partnerBy?_map (·.assigned) (·.bundle) _ s place body

theorem map_bundle_merge (e : Equation) (lists : List (List Share)) :
    (merge e lists).map (·.bundle) =
      Bundle.merge e.ownExprs (lists.map (List.map (·.bundle))) := by
  have hnames : ((lists.headD []).map (·.bundle)).map (·.assigned) =
      (lists.headD []).map assigned := List.map_map
  rw [merge, Bundle.merge]
  dsimp only
  rw [headD_map List.map_nil, hnames, List.zipIdx_map, List.map_map, List.map_map]
  refine List.map_congr_left fun p _ => ?_
  have hpartners := map_bundle_partners lists p.1 p.2
  simp only [Function.comp_apply, Prod.map_fst, Prod.map_snd, id_eq, join, hpartners, assigned]

theorem mem_flatten_of_mem_partners {b : Share} (h : b ∈ partners lists s place) :
    b ∈ lists.flatten := by
  obtain ⟨body, hbody, hb⟩ := List.mem_filterMap.mp h
  exact List.mem_flatten.mpr ⟨body, hbody, mem_of_partnerBy? hb⟩

theorem partners_ne_nil (h : (s, place) ∈ (lists.headD []).zipIdx) :
    partners lists s place ≠ [] := by
  have hs : ((lists.map (List.map (·.bundle))).headD [])[place]? = some s.bundle := by
    rw [headD_map List.map_nil, List.getElem?_map, List.mem_zipIdx_iff_getElem?.mp h]
    rfl
  have hself := Bundle.self_mem_partners hs
  have hnames : ((lists.map (List.map (·.bundle))).headD []).map (·.assigned) =
      (lists.headD []).map assigned := by
    rw [headD_map List.map_nil, List.map_map]
    rfl
  rw [hnames, ← map_bundle_partners] at hself
  exact fun hnil => by simp [hnil] at hself

theorem simples_join (e : Equation) (h : e.isSimple = false) (name : Option String)
    (parts : List Share) : (join e name parts).simples = parts.flatMap simples := by
  rw [simples, join, List.filter_cons_of_neg (by simpa [Placed.isSimple] using h),
    List.filter_flatMap]
  rfl

theorem isSound_join (kind : ChoiceKind) (branches : List Branch)
    (otherwise : Option (List Equation)) (assigned : Option String)
    (h : ∀ s ∈ parts, s.IsSound) :
    (join (.choice kind branches otherwise) assigned parts).IsSound where
  ne_nil := List.cons_ne_nil _ _
  exprs := by
    have hparts : (parts.map (·.bundle)).flatMap (·.exprs) =
        (parts.flatMap (·.nodes)).flatMap (·.equation.ownExprs) := by
      rw [List.flatMap_map, List.flatMap_assoc]
      exact List.flatMap_congr fun s hs => (h s hs).exprs
    rw [join, Bundle.join, List.flatMap_cons, hparts]
  length := by
    have hparts : ((parts.map (·.bundle)).flatMap (·.equations)).length =
        (parts.flatMap (·.nodes)).countP (·.isSimple) := by
      rw [List.flatMap_map, List.length_flatMap, List.countP_flatMap]
      exact congrArg List.sum (List.map_congr_left fun s hs => (h s hs).length)
    rw [join, Bundle.join, List.countP_cons_of_neg Bool.false_ne_true, hparts]

namespace Divide

theorem append (h : Divide whole bundles shares) (h' : Divide whole' bundles' shares')
    (hunrelated : Placed.Unrelated whole whole') :
    Divide (whole ++ whole') (bundles ++ bundles') (shares ++ shares') where
  bundles := by rw [List.map_append, h.bundles, h'.bundles]
  isPart := by
    rw [List.forall_mem_append]
    constructor
    · intro s hs
      have happend := (h.isPart s hs).append (.nil whole') hunrelated
      rwa [List.append_nil] at happend
    · exact fun s hs => (Placed.IsPart.nil whole).append (h'.isPart s hs) hunrelated
  sound := List.forall_mem_append.mpr ⟨h.sound, h'.sound⟩
  simples := by
    rw [List.flatMap_append, List.filter_append]
    exact h.simples.append h'.simples

theorem within (h : Divide whole bundles shares) (k : Nat) : Divide (whole.map (Placed.within k))
    bundles (shares.map fun s => ⟨s.bundle, s.nodes.map (Placed.within k)⟩) where
  bundles := by rw [List.map_map, ← h.bundles]; rfl
  isPart := List.forall_mem_map.mpr fun s hs => (h.isPart s hs).within k
  sound := by
    refine List.forall_mem_map.mpr fun s hs => ⟨?_, ?_, ?_⟩
    · simpa using (h.sound s hs).ne_nil
    · rw [List.flatMap_map]
      exact (h.sound s hs).exprs
    · rw [List.countP_map]
      exact (h.sound s hs).length
  simples := by
    have hfilter : ∀ ps : List Placed, (ps.map (Placed.within k)).filter (·.isSimple) =
        (ps.filter (·.isSimple)).map (Placed.within k) := fun _ => List.filter_map
    rw [List.flatMap_map, hfilter]
    simp only [Share.simples, hfilter]
    rw [← List.map_flatMap]
    exact h.simples.map _

end Divide

end Share

namespace Equation

variable {kind : ChoiceKind} {branches : List Branch} {otherwise : Option (List Equation)}

theorem exists_divide_all (h : ∀ e ∈ es, ∃ shares, Share.Divide e.placed e.bundles shares)
    (k : Nat) : ∃ shares, Share.Divide (placedFrom k es) (bundlesAll es) shares := by
  induction es generalizing k with
  | nil => exact ⟨[], rfl, List.forall_mem_nil _, List.forall_mem_nil _, .nil⟩
  | cons e rest ih =>
    rw [List.forall_mem_cons] at h
    obtain ⟨shares, hshares⟩ := h.1
    obtain ⟨others, hothers⟩ := ih h.2 (k + 1)
    exact ⟨_, (hshares.within k).append hothers (unrelated_first k e rest)⟩

/-- Of the shares of several bodies, one of each at most makes up a part again. -/
theorem exists_divide_bodies {bodies : List (List Equation)}
    (h : ∀ body ∈ bodies, ∀ e ∈ body, ∃ shares, Share.Divide e.placed e.bundles shares) (k : Nat) :
    ∃ lists : List (List Share),
      lists.map (List.map (·.bundle)) = bodies.map bundlesAll ∧
      (∀ s ∈ lists.flatten, s.IsSound) ∧
      (∀ pick : List Share → Option Share, (∀ shares, ∀ s ∈ pick shares, s ∈ shares) →
        Placed.IsPart (placedFrom k bodies.flatten)
          ((lists.filterMap pick).flatMap (·.nodes))) ∧
      (lists.flatten.flatMap Share.simples).Perm
        ((placedFrom k bodies.flatten).filter (·.isSimple)) := by
  induction bodies generalizing k with
  | nil => exact ⟨[], rfl, List.forall_mem_nil _, fun _ _ => .nil _, .nil⟩
  | cons body rest ih =>
    rw [List.forall_mem_cons] at h
    obtain ⟨shares, hshares⟩ := exists_divide_all h.1 k
    obtain ⟨lists, hbundles, hsound, hpick, hsimples⟩ := ih h.2 (k + body.length)
    have hunrelated := unrelated_placedFrom k body rest.flatten
    refine ⟨shares :: lists, ?_, ?_, fun pick hmem => ?_, ?_⟩
    · rw [List.map_cons, List.map_cons, hshares.bundles, hbundles]
    · exact List.forall_mem_append.mpr ⟨hshares.sound, hsound⟩
    · rw [List.flatten_cons, placedFrom_append, List.filterMap_cons]
      cases hs : pick shares with
      | none => exact (Placed.IsPart.nil _).append (hpick pick hmem) hunrelated
      | some s =>
        exact (hshares.isPart s (hmem shares s hs)).append (hpick pick hmem) hunrelated
    · rw [List.flatten_cons, List.flatten_cons, placedFrom_append, List.filter_append,
        List.flatMap_append]
      exact hshares.simples.append hsimples

theorem exists_divide_choice
    (hperm : ∀ body ∈ bodiesOf branches otherwise,
      (namesOf body).Perm (namesOf ((bodiesOf branches otherwise).headD [])))
    (h : ∀ body ∈ bodiesOf branches otherwise, ∀ e ∈ body,
      ∃ shares, Share.Divide e.placed e.bundles shares) :
    ∃ shares, Share.Divide (choice kind branches otherwise).placed
      (choice kind branches otherwise).bundles shares := by
  obtain ⟨lists, hbundles, hsound, hpick, hsimples⟩ := exists_divide_bodies h 0
  -- The shares have the names of their bundles, so those of a body permute those of the first one.
  have hnames : lists.map (List.map Share.assigned) =
      (bodiesOf branches otherwise).map namesOf := by
    have hmap := congrArg (List.map (List.map (·.assigned))) hbundles
    simp only [List.map_map, Function.comp_def] at hmap
    exact hmap
  have hpartners : ∀ body ∈ lists,
      (body.map Share.assigned).Perm ((lists.headD []).map Share.assigned) := by
    intro body hbody
    have hmem := List.mem_map_of_mem (f := List.map Share.assigned) hbody
    rw [hnames] at hmem
    obtain ⟨es, hes, heq⟩ := List.mem_map.mp hmem
    rw [← heq, ← headD_map List.map_nil, hnames, headD_map rfl]
    exact hperm es hes
  refine ⟨Share.merge (choice kind branches otherwise) lists, ?_, ?_, ?_, ?_⟩
  · rw [Share.map_bundle_merge, hbundles, bundles_choice]
    rfl
  · rw [Share.merge, List.forall_mem_map, placed_choice]
    intro p hp
    refine (hpick _ fun _ _ hs => mem_of_partnerBy? hs).cons ?_ ?_ _
    · intro w hw hnil
      obtain ⟨j, inner, hplace, _⟩ := place_of_mem_placedFrom hw
      cases hnil.symm.trans hplace
    · intro hnil
      obtain ⟨s, hs⟩ := List.exists_mem_of_ne_nil _ (Share.partners_ne_nil hp)
      exact (hsound s (Share.mem_flatten_of_mem_partners hs)).ne_nil
        (List.flatMap_eq_nil_iff.mp hnil s hs)
  · rw [Share.merge, List.forall_mem_map]
    intro p _
    exact Share.isSound_join kind branches otherwise _ fun s hs =>
      hsound s (Share.mem_flatten_of_mem_partners hs)
  · have hroot : (choice kind branches otherwise).isSimple = false := rfl
    rw [placed_choice, List.filter_cons_of_neg (by simp [Placed.isSimple, hroot])]
    refine List.Perm.trans ?_ hsimples
    rw [Share.merge, List.flatMap_map]
    simp only [Share.simples_join _ hroot]
    rw [← List.flatMap_assoc]
    exact (perm_partnersAll hpartners).flatMap_right _

theorem exists_divide {e : Equation} (h : ∀ n ∈ e.nodes, n.IsBalanced) :
    ∃ shares, Share.Divide e.placed e.bundles shares := by
  induction e using Equation.inductionOn with
  | simple lhs rhs =>
    let share : Share := {
      bundle := {
        assigned := (simple lhs rhs).assignedName
        exprs := [lhs, rhs]
        conditions := []
        equations := [.simple lhs rhs] }
      nodes := [⟨[], .simple lhs rhs⟩] }
    have hpart : Placed.IsPart (simple lhs rhs).placed share.nodes := by
      refine ⟨.refl _, fun q _ c hc _ => hc, List.forall_mem_singleton.mpr ?_⟩
      exact ⟨_, List.mem_singleton_self _, rfl, List.prefix_refl _⟩
    exact ⟨[share], rfl, List.forall_mem_singleton.mpr hpart,
      List.forall_mem_singleton.mpr ⟨List.cons_ne_nil _ _, rfl, rfl⟩, .refl _⟩
  | loop index start stop step body ih => cases h _ (self_mem_nodes _)
  | choice kind branches otherwise ih =>
    obtain ⟨⟨_, hperm⟩, hbodies⟩ := forall_nodes_choice.mp h
    exact exists_divide_choice hperm fun body hbody e he => ih body hbody e he
      (hbodies body hbody e he)

end Equation

/-- The residual comes from these equations inside an equation. Its expressions are the sides of the
simple ones and the conditions of the choices, and it counts the simple ones. -/
structure Residual.IsMadeOf (r : Residual) (whole part : List Placed) : Prop where
  isPart : Placed.IsPart whole part
  exprs : r.exprs = part.flatMap (·.equation.ownExprs)
  multiplicity : r.multiplicity = part.countP (·.isSimple)

theorem Share.IsSound.isMadeOf {s : Share} (h : s.IsSound) (hpart : Placed.IsPart whole s.nodes) :
    s.bundle.residual.IsMadeOf whole s.nodes :=
  ⟨hpart, h.exprs, h.length⟩

theorem Residual.sum_multiplicity {rs : List Residual} {parts : List (List Placed)}
    (h : List.Forall₂ (fun r part => r.IsMadeOf whole part) rs parts) :
    (rs.map (·.multiplicity)).sum = (parts.flatMap (·.filter (·.isSimple))).length := by
  induction h with
  | nil => rfl
  | cons hr _ ih =>
    rw [List.map_cons, List.sum_cons, hr.multiplicity, ih, List.flatMap_cons, List.length_append,
      List.countP_eq_length_filter]

namespace Equation

/-- The equations inside an equation have different places, and a place that continues another one
is inside. Where the equation has residuals, each residual comes from a part of them, and each
simple equation is in exactly one part. So the residuals count as many simple equations as there
are. -/
theorem residuals_partition (e : Equation) (rs : List Residual) (h : e.residuals = .ok rs) :
    (e.placed.map (·.place)).Nodup ∧ e.placed.map (·.equation) = e.nodes ∧
      (∀ c ∈ e.placed, ∀ p : Placed,
        ⟨c.place ++ p.place, p.equation⟩ ∈ e.placed ↔ p ∈ c.equation.placed) ∧
      ∃ parts : List (List Placed),
        List.Forall₂ (fun r part => r.IsMadeOf e.placed part) rs parts ∧
        (parts.flatMap (·.filter (·.isSimple))).Perm (e.placed.filter (·.isSimple)) ∧
        (rs.map (·.multiplicity)).sum = (e.nodes.filter (·.isSimple)).length := by
  obtain ⟨hbalanced, rfl⟩ := residuals_eq_ok.mp h
  obtain ⟨shares, hshares⟩ := exists_divide hbalanced
  have hmade : List.Forall₂ (fun r part => Residual.IsMadeOf r e.placed part)
      (e.bundles.map Bundle.residual) (shares.map (·.nodes)) := by
    rw [← hshares.bundles, List.map_map, List.forall₂_map_left_iff, List.forall₂_map_right_iff,
      List.forall₂_same]
    exact fun s hs => (hshares.sound s hs).isMadeOf (hshares.isPart s hs)
  have hperm : ((shares.map (·.nodes)).flatMap (·.filter (·.isSimple))).Perm
      (e.placed.filter (·.isSimple)) := by
    rw [List.flatMap_map]
    exact hshares.simples
  refine ⟨e.nodup_placed, e.map_equation_placed, e.append_mem_placed, shares.map (·.nodes), hmade,
    hperm, ?_⟩
  rw [Residual.sum_multiplicity hmade, hperm.length_eq, ← e.map_equation_placed, List.filter_map,
    List.length_map]
  rfl

/-- The choice inside leaves one part for `x` and none for `y`. -/
theorem nested_partition : ∃ rs, nested.residuals = .ok rs ∧ rs.map (·.multiplicity) = [3, 2] ∧
    ∃ parts : List (List Placed),
      List.Forall₂ (fun r part => r.IsMadeOf nested.placed part) rs parts ∧
      (parts.flatMap (·.filter (·.isSimple))).Perm (nested.placed.filter (·.isSimple)) := by
  obtain ⟨_, _, _, parts, hmade, hperm, _⟩ := residuals_partition nested _ rfl
  exact ⟨_, rfl, rfl, parts, hmade, hperm⟩

end Equation

end Causality
