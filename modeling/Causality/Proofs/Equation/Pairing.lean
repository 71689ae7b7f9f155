import Causality.Proofs.Equation.Bundles

/-!
# Pairing in choices

The residuals of the bodies are paired by the names of the first body if these tell them apart, else
by their place. By place, equations that assign different variables can be merged, because a
balanced choice only has the same names in every body, in any order. They are never merged exactly
if at every choice one of two things holds: names tell the first body apart, or all bodies list the
same names in the same order.
-/

namespace Causality

/-! ### Lists that agree where there is a name -/

theorem count_none_le {xs ys : List (Option String)}
    (h : List.Forall₂ (fun x y => x = none ∨ x = y) xs ys) : ys.count none ≤ xs.count none := by
  induction h with
  | nil => exact Nat.le_refl 0
  | cons hxy _ ih =>
    rcases hxy with rfl | rfl
    · rw [List.count_cons, List.count_cons_self]
      split <;> omega
    · rw [List.count_cons, List.count_cons]
      exact Nat.add_le_add_right ih _

theorem eq_of_agree {xs ys : List (Option String)}
    (h : List.Forall₂ (fun x y => x = none ∨ x = y) xs ys) (hperm : ys.Perm xs) : ys = xs := by
  induction h with
  | nil => rfl
  | @cons x y xs ys hxy hrest ih =>
    obtain rfl : x = y := by
      by_contra hne
      -- a name in place of `none` is one more than there are
      obtain rfl := hxy.resolve_right hne
      have hcount := hperm.count_eq none
      rw [List.count_cons_self, List.count_cons_of_ne (Ne.symm hne)] at hcount
      exact absurd (count_none_le hrest) (by omega)
    rw [ih hperm.cons_inv]

namespace Bundle

variable {conditions : List Expr} {bodies : List (List Bundle)} {body : List Bundle}
  {b c : Bundle} {place : Nat}

/-- A bundle that stands for a variable holds only equations that assign it. -/
def IsFaithful (b : Bundle) : Prop :=
  ∀ n, b.assigned = some n → ∀ q ∈ b.equations, q.assignedName = some n

/-- Names tell the first body apart, or all bodies list the same names in the same order. -/
def Aligned (bodies : List (List Bundle)) : Prop :=
  tellApart ((bodies.headD []).map (·.assigned)) = true ∨
    ∀ body ∈ bodies, body.map (·.assigned) = (bodies.headD []).map (·.assigned)

theorem Aligned.assigned_eq (h : Aligned bodies) (hbody : body ∈ bodies)
    (hb : (bodies.headD [])[place]? = some b)
    (hc : partnerBy? (·.assigned) (tellApart ((bodies.headD []).map (·.assigned))) b place body =
      some c) :
    c.assigned = b.assigned := by
  rw [partnerBy?] at hc
  split_ifs at hc with happart
  · simpa using List.find?_some hc
  · have hnames := congrArg (·[place]?) (h.resolve_left happart body hbody)
    rw [List.getElem?_map, List.getElem?_map, hb, hc] at hnames
    exact Option.some.inj hnames

theorem Aligned.exists_partner (h : Aligned bodies)
    (hperm : ∀ body ∈ bodies, (body.map (·.assigned)).Perm ((bodies.headD []).map (·.assigned)))
    (hbody : body ∈ bodies) (hc : c ∈ body) :
    ∃ b place, (bodies.headD [])[place]? = some b ∧
      partnerBy? (·.assigned) (tellApart ((bodies.headD []).map (·.assigned))) b place body =
        some c := by
  by_cases happart : tellApart ((bodies.headD []).map (·.assigned)) = true
  · have hname := (hperm body hbody).subset (List.mem_map_of_mem hc)
    obtain ⟨b, hb, hassigned⟩ := List.mem_map.mp hname
    obtain ⟨place, hb⟩ := List.mem_iff_getElem?.mp hb
    have hnodup := (hperm body hbody).nodup_iff.mpr (tellApart_iff.mp happart).2
    refine ⟨b, place, hb, ?_⟩
    rw [partnerBy?, if_pos happart, hassigned]
    exact find?_name hnodup hc
  · obtain ⟨place, hc⟩ := List.mem_iff_getElem?.mp hc
    have hnames := congrArg (·[place]?) (h.resolve_left happart body hbody)
    rw [List.getElem?_map, List.getElem?_map, hc] at hnames
    obtain ⟨b, hb, _⟩ := Option.map_eq_some_iff.mp hnames.symm
    refine ⟨b, place, hb, ?_⟩
    rw [partnerBy?, if_neg happart]
    exact hc

/-- What is merged by place is in order if no equation is merged into a bundle for another variable:
the names of a body can only differ where the first body has none. -/
theorem aligned_of_faithful
    (hperm : ∀ body ∈ bodies, (body.map (·.assigned)).Perm ((bodies.headD []).map (·.assigned)))
    (hown : ∀ body ∈ bodies, ∀ c ∈ body, ∃ q ∈ c.equations, q.assignedName = c.assigned)
    (h : ∀ m ∈ merge conditions bodies, m.IsFaithful) : Aligned bodies := by
  refine or_iff_not_imp_left.mpr fun happart body hbody => ?_
  refine eq_of_agree (List.forall₂_iff_get.mpr ⟨?_, fun place hplace hplace' => ?_⟩)
    (hperm body hbody)
  · exact (hperm body hbody).length_eq.symm
  · rw [List.length_map] at hplace hplace'
    have hb := List.getElem?_eq_getElem hplace
    have hc := List.getElem?_eq_getElem hplace'
    simp only [List.get_eq_getElem, List.getElem_map]
    generalize (bodies.headD [])[place] = b at hb
    generalize body[place] = c at hc
    rcases hassigned : b.assigned with _ | n
    · exact .inl rfl
    · obtain ⟨q, hq, hname⟩ := hown body hbody c (List.mem_of_getElem? hc)
      have hpartner : c ∈ partners (tellApart ((bodies.headD []).map (·.assigned))) bodies b
          place := by
        refine List.mem_filterMap.mpr ⟨body, hbody, ?_⟩
        rw [partnerBy?, if_neg happart]
        exact hc
      have hmerged := h _ (mem_merge.mpr ⟨b, place, hb, rfl⟩) n hassigned q
        (List.mem_flatMap.mpr ⟨c, hpartner, hq⟩)
      exact .inr (hmerged.symm.trans hname)

/-- One choice: the merged bundles are faithful exactly if those of the bodies are, and the bodies
are aligned. -/
theorem faithful_merge
    (hperm : ∀ body ∈ bodies, (body.map (·.assigned)).Perm ((bodies.headD []).map (·.assigned)))
    (hown : ∀ body ∈ bodies, ∀ c ∈ body, ∃ q ∈ c.equations, q.assignedName = c.assigned) :
    (∀ m ∈ merge conditions bodies, m.IsFaithful) ↔
      Aligned bodies ∧ ∀ body ∈ bodies, ∀ c ∈ body, c.IsFaithful := by
  constructor
  · intro h
    have haligned := aligned_of_faithful hperm hown h
    refine ⟨haligned, fun body hbody c hc n hn q hq => ?_⟩
    obtain ⟨b, place, hb, hpartner⟩ := haligned.exists_partner hperm hbody hc
    have hassigned := haligned.assigned_eq hbody hb hpartner
    have hmem := List.mem_filterMap.mpr ⟨body, hbody, hpartner⟩
    exact h _ (mem_merge.mpr ⟨b, place, hb, rfl⟩) n (hassigned.symm.trans hn) q
      (List.mem_flatMap.mpr ⟨c, hmem, hq⟩)
  · rintro ⟨haligned, h⟩ m hm n hn q hq
    obtain ⟨b, place, hb, rfl⟩ := mem_merge.mp hm
    obtain ⟨c, hc, hq⟩ := List.mem_flatMap.mp hq
    obtain ⟨body, hbody, hpartner⟩ := List.mem_filterMap.mp hc
    have hassigned := haligned.assigned_eq hbody hb hpartner
    exact h body hbody c (mem_of_partnerBy? hpartner) n (hassigned.trans hn) q hq

end Bundle

namespace Equation

/-- The bodies of a choice are paired without mixing variables. -/
def IsAligned : Equation → Prop
  | choice _ branches otherwise =>
    Bundle.tellApart (namesOf ((bodiesOf branches otherwise).headD [])) = true ∨
      ∀ body ∈ bodiesOf branches otherwise,
        namesOf body = namesOf ((bodiesOf branches otherwise).headD [])
  | _ => True

theorem faithful_bundles {e : Equation} (h : ∀ n ∈ e.nodes, n.IsBalanced) :
    (∀ b ∈ e.bundles, b.IsFaithful) ↔ ∀ n ∈ e.nodes, n.IsAligned := by
  induction e using Equation.inductionOn with
  | simple lhs rhs =>
    have hown : ∀ b ∈ (simple lhs rhs).bundles, b.IsFaithful := by
      intro b hb n hn q hq
      obtain rfl := List.mem_singleton.mp hb
      obtain rfl := List.mem_singleton.mp hq
      exact hn
    exact iff_of_true hown (by simp [nodes, IsAligned])
  | loop index start stop step body ih => cases h _ (self_mem_nodes _)
  | choice kind branches otherwise ih =>
    obtain ⟨⟨_, hperm⟩, hbodies⟩ := forall_nodes_choice.mp h
    have hbundles : ∀ body ∈ bodiesOf branches otherwise,
        (∀ b ∈ bundlesAll body, b.IsFaithful) ↔ ∀ e ∈ body, ∀ n ∈ e.nodes, n.IsAligned := by
      intro body hbody
      rw [bundlesAll_eq, List.forall_mem_flatMap]
      exact forall₂_congr fun e he => ih body hbody e he (hbodies body hbody e he)
    have hown : ∀ body ∈ bodiesOf branches otherwise, ∀ c ∈ bundlesAll body,
        ∃ q ∈ c.equations, q.assignedName = c.assigned := by
      intro body hbody c hc
      rw [bundlesAll_eq] at hc
      obtain ⟨e, he, hc⟩ := List.mem_flatMap.mp hc
      exact (e.isMadeFrom c hc).assigned
    have hhead : (((bodiesOf branches otherwise).map bundlesAll).headD []).map (·.assigned) =
        namesOf ((bodiesOf branches otherwise).headD []) := by rw [headD_map rfl, namesOf]
    rw [forall_nodes_choice, bundles_choice,
      Bundle.faithful_merge (List.forall_mem_map.mpr fun body hbody => hhead ▸ hperm body hbody)
        (List.forall_mem_map.mpr hown)]
    rw [Bundle.Aligned, hhead, List.forall_mem_map, List.forall_mem_map]
    exact and_congr Iff.rfl (forall₂_congr hbundles)

/-- Where an equation has residuals, they are made of its conditions and simple equations. Those
that stand for a variable hold only equations that assign it exactly if at every choice names tell
the first body apart, or all bodies assign the same variables in the same order. -/
theorem pairing_faithful_iff (e : Equation) (rs : List Residual) (h : e.residuals = .ok rs) :
    rs = e.bundles.map Bundle.residual ∧ (∀ b ∈ e.bundles, b.IsMadeFrom e) ∧
      ((∀ b ∈ e.bundles, ∀ n, b.assigned = some n →
          ∀ q ∈ b.equations, q.assignedName = some n) ↔
        ∀ n ∈ e.nodes, n.IsAligned) := by
  obtain ⟨hbalanced, hrs⟩ := residuals_eq_ok.mp h
  exact ⟨hrs, e.isMadeFrom, faithful_bundles hbalanced⟩

/-- Two branches that assign `x` and `y` in different orders, after what else they begin with. -/
def exchanged (start : Int → List Equation) : Equation :=
  .choice .ifThen
    [.mk (.var "c")
      (start 1 ++ [.simple (.var "x") (.lit (.int 1)), .simple (.var "y") (.lit (.int 2))])]
    (some (start 2 ++ [.simple (.var "y") (.lit (.int 3)), .simple (.var "x") (.lit (.int 4))]))

def total (value : Int) : Equation :=
  .simple (.binary .add (.var "a") (.var "b")) (.lit (.int value))

theorem exchanged_pairing : ∃ rs, (exchanged fun _ => []).residuals = .ok rs ∧
    ∀ b ∈ (exchanged fun _ => []).bundles, ∀ n, b.assigned = some n →
      ∀ q ∈ b.equations, q.assignedName = some n := by
  have haligned : ∀ n ∈ (exchanged fun _ => []).nodes, n.IsAligned := by
    refine forall_nodes_choice.mpr ⟨.inl (by decide), ?_⟩
    simp [bodiesOf, Branch.body, nodes, IsAligned]
  exact ⟨_, rfl, (pairing_faithful_iff _ _ rfl).2.2.mpr haligned⟩

/-- With an equation that assigns no variable in both branches, pairing is by place. -/
theorem exchanged_by_place : (exchanged fun k => [total k]).residuals =
      .ok ((exchanged fun k => [total k]).bundles.map Bundle.residual) ∧
    ∃ b ∈ (exchanged fun k => [total k]).bundles, b.assigned = some "x" ∧
      b.exprs = [.var "c", .var "x", .lit (.int 1), .var "y", .lit (.int 3)] ∧
      ∃ q ∈ b.equations, q.assignedName = some "y" :=
  ⟨rfl, _, List.mem_of_getElem? (i := 1) rfl, rfl, rfl, _, List.mem_of_getElem? (i := 1) rfl, rfl⟩

end Equation

end Causality
