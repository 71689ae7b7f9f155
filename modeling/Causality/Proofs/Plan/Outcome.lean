import Causality.Proofs.Affine.Overflow
import Causality.Proofs.Block.Uniqueness
import Causality.Proofs.Incidence.Undeclared
import Causality.Proofs.Plan.Stages

/-!
# Outcomes of an analysis

The checks of a model rule out every fault of its analysis but three. A reference can be undeclared,
an integer can be too large to compute with where an equation is solved for its unknown, and an
integer can be too long to be shown, whether it bounds the search or belongs to an equation that is
left over.
-/

namespace Causality

variable {m : Model} {settings : Settings} {includeInitial : Bool} {g : Incidence} {x : Matching}
  {a : Assignment} {slots : List Occurrence} {fault : Fault}

/-! ### Blocks -/

/-- The equation is to be solved for the slot that it is assigned, and some integer in it or
computed from such has no double. -/
structure Incidence.Overflows (g : Incidence) (a : Assignment) (e : Entry) (slot : Occurrence)
    (lhs rhs : Expr) : Prop where
  mem : e ∈ g.entries
  assigned : (e.id, slot) ∈ a.pairs
  alone : e.isSelfDependent slot = false
  source : e.source = .simple lhs rhs
  failed : solveFor slot lhs rhs = .error (.conversion .tooLarge)
  large : doubleBound ≤ lhs.magnitude * rhs.magnitude

def Incidence.IsOverflow (g : Incidence) (a : Assignment) (fault : Fault) : Prop :=
  fault = .conversion .tooLarge ∧ ∃ e slot lhs rhs, g.Overflows a e slot lhs rhs

/-- The sides of the simple equations among the sources are free of foreign nodes. -/
def Incidence.KnownSources (g : Incidence) : Prop :=
  ∀ e ∈ g.entries, ∀ lhs rhs, e.source = .simple lhs rhs → lhs.Known ∧ rhs.Known

theorem Model.knownSources (h : m.incidence includeInitial = .ok g) : g.KnownSources := by
  intro e he lhs rhs hsource
  have hsimple := m.isSimple_of_source h he hsource
  exact ⟨hsimple.left.plain.known lhs, hsimple.right.plain.known rhs⟩

namespace Incidence

theorem IsMember.ofMember_overflows {id : String} {p : Entry × Occurrence}
    (hg : g.KnownSources) (h : g.IsMember a id p) :
    FailsOnly (g.IsOverflow a) (Block.ofMember p.1 p.2) := by
  obtain ⟨e, slot⟩ := p
  obtain ⟨hmem, rfl, hassigned⟩ := h
  unfold Block.ofMember
  by_cases hself : e.isSelfDependent slot = true
  · rw [if_pos hself]
    exact .pure _
  · rw [if_neg hself]
    apply FailsOnly.bind
    · unfold Entry.solution?
      split
      · next lhs rhs hsource =>
        obtain ⟨hl, hr⟩ := hg e hmem lhs rhs hsource
        constructor
        intro fault hfault
        obtain ⟨rfl, hlarge⟩ := (solveFor_overflows hl hr).of_error fault hfault
        have halone := Bool.eq_false_iff.mpr hself
        exact ⟨rfl, e, slot, lhs, rhs, hmem, hassigned, halone, hsource, hfault, hlarge⟩
      · exact .ok _
    · exact fun _ _ => .pure _

theorem ofMembers_overflows {ids : List String} {part : List (Entry × Occurrence)}
    (hg : g.KnownSources) (h : List.Forall₂ (g.IsMember a) ids part) :
    FailsOnly (g.IsOverflow a) (Block.ofMembers part) := by
  match h with
  | .nil => exact .ok _
  | .cons hp .nil => exact hp.ofMember_overflows hg
  | .cons _ (.cons _ _) => exact .ok _

theorem exists_members (hids : g.ids.Nodup) (ha : g.IsMatching slots a) {ids : List String}
    (hsub : ∀ id ∈ ids, id ∈ a.ids) : ∃ part, ids.mapM (g.member a) = .ok part := by
  have hmember : ∀ id ∈ ids, ∃ p, g.member a id = .ok p := by
    intro id hid
    obtain ⟨slot, hslot⟩ := Assignment.mem_ids.mp (hsub id hid)
    obtain ⟨e, he, heid⟩ := Incidence.mem_ids.mp (ha.mem_ids (hsub id hid))
    exact ⟨(e, slot), (member_eq_ok hids).mpr ⟨he, heid, hslot⟩⟩
  obtain ⟨part, hpart⟩ := exists_forall₂ hmember
  exact ⟨part, mapM_eq_ok.mpr hpart⟩

theorem blocks_overflow (hids : g.ids.Nodup) (hplaced : g.Placed) (ha : g.IsMatching slots a)
    (hg : g.KnownSources) : FailsOnly (g.IsOverflow a) (g.blocks a) := by
  obtain ⟨order, horder, hisOrder⟩ := components_ok hids hplaced ha
  unfold blocks
  rw [horder]
  apply FailsOnly.mapM
  intro c hc
  obtain ⟨part, hpart⟩ := exists_members hids ha fun id hid => hisOrder.mem_ids hc hid
  rw [hpart]
  apply ofMembers_overflows hg
  exact (mapM_eq_ok.mp hpart).imp fun _ _ hp => (member_eq_ok hids).mp hp

end Incidence

/-! ### Analyses -/

/-- The fault of an analysis once the incidence of the model is known. -/
inductive Incidence.IsLateFault (g : Incidence) (x : Matching) : Fault → Prop
  | overflow {e : Entry} {slot : Occurrence} {lhs rhs : Expr} :
    g.Overflows x.assignment e slot lhs rhs → IsLateFault g x (.conversion .tooLarge)
  | surplus : ¬ g.SurplusWritable x → IsLateFault g x .unwritableInteger

theorem Model.analyze_fails_late (hwritable : settings.isWritable = true)
    (hg : m.incidence settings.includeInitial = .ok g) :
    FailsOnly (g.IsLateFault (m.matching g settings.maxSteps)) (m.analyze settings) := by
  have hids := m.nodup_ids hg
  have hadmits := m.matching_admits hg settings.maxSteps
  unfold analyze
  rw [Settings.note_eq_ok.mpr hwritable, hg]
  apply FailsOnly.ok_bind
  apply FailsOnly.ok_bind
  rw [m.findMatching_of_isWritable g hwritable]
  apply FailsOnly.ok_bind
  apply FailsOnly.bind
  · apply (Incidence.blocks_overflow hids (m.placed hg) hadmits.isMatching
      (Model.knownSources hg)).imp
    rintro fault ⟨rfl, e, slot, lhs, rhs, h⟩
    exact .overflow h
  · intro bs _
    apply FailsOnly.bind
    · apply (Incidence.issues_fail hadmits.unmatched_subset bs).imp
      rintro fault ⟨rfl, h⟩
      exact .surplus h
    · exact fun _ _ => .pure _

inductive Model.IsAnalysisFault (m : Model) (settings : Settings) : Fault → Prop
  | bound : settings.isWritable = false → IsAnalysisFault m settings .unwritableInteger
  | undeclared {fault : Fault} : m.Misses fault → IsAnalysisFault m settings fault
  | late {g : Incidence} {fault : Fault} : m.incidence settings.includeInitial = .ok g →
    g.IsLateFault (m.matching g settings.maxSteps) fault → IsAnalysisFault m settings fault

theorem Model.analyze_fails (m : Model) (settings : Settings) :
    FailsOnly (m.IsAnalysisFault settings) (m.analyze settings) := by
  cases hwritable : settings.isWritable with
  | false =>
    have hnote : settings.note = .error .unwritableInteger :=
      whenWritable_eq_error.mpr ⟨hwritable, rfl⟩
    unfold analyze
    rw [hnote]
    exact .error (.bound hwritable)
  | true =>
    cases hg : m.incidence settings.includeInitial with
    | error fault =>
      unfold analyze
      rw [Settings.note_eq_ok.mpr hwritable, hg]
      exact .error (.undeclared ((m.incidence_misses settings.includeInitial).of_error fault hg))
    | ok g => exact (Model.analyze_fails_late hwritable hg).imp fun _ hfault => .late hg hfault

/-- An analysis comes to a plan unless an equation refers to a symbol that is not declared, the
integers in an equation that is solved for its unknown are so large that their product is beyond
the largest double, or an integer is too long to be shown: the bound on the search, or one in an
equation that is left over. -/
theorem Model.analyze_outcome (m : Model) (settings : Settings) :
    (∃ p, m.analyze settings = .ok p) ∨
      (∃ id symbol, m.analyze settings = .error (.undeclared id symbol) ∧
        m.owner? symbol = none ∧ m.declared? symbol = none) ∨
      (m.analyze settings = .error (.conversion .tooLarge) ∧
        ∃ g e slot lhs rhs, m.incidence settings.includeInitial = .ok g ∧
          g.Overflows (m.matching g settings.maxSteps).assignment e slot lhs rhs) ∨
      (m.analyze settings = .error .unwritableInteger ∧
        (settings.isWritable = false ∨ ∃ g, m.incidence settings.includeInitial = .ok g ∧
          ¬ g.SurplusWritable (m.matching g settings.maxSteps))) := by
  obtain hplan | ⟨fault, hfault, hcause⟩ := (m.analyze_fails settings).succeeds_or
  · exact .inl hplan
  · right
    cases hcause with
    | bound hbound => exact .inr (.inr ⟨hfault, .inl hbound⟩)
    | undeclared hmisses =>
      obtain ⟨id, symbol, rfl, howner, hdeclared⟩ := hmisses
      exact .inl ⟨id, symbol, hfault, howner, hdeclared⟩
    | late hg hlate =>
      cases hlate with
      | overflow h => exact .inr (.inl ⟨hfault, _, _, _, _, _, hg, h⟩)
      | surplus h => exact .inr (.inr ⟨hfault, .inr ⟨_, hg, h⟩⟩)

/-! ### An integer without a double -/

/-- The equation `x + y = n` of a double `y` and an integer `n`. -/
def Draft.offset (y : Float) (n : Int) : Draft where
  name := "offset"
  vars := [.unknown "x" x_ne_empty]
  equations
    | .continuous => [.simple (.binary .add (.var "x") (.lit (.real y))) (.lit (.int n))]
    | _ => []
  description := ""

theorem Draft.elaborate_offset (y : Float) (n : Int) :
    (Draft.offset y n).elaborate = .ok (Draft.offset y n).asDeclared := by
  apply Draft.elaborate_of_sections
  · cbv
  · cbv
  · intro s
    cases s <;> cbv
  · intro s
    cases s <;> cbv

def Model.offset (y : Float) (n : Int) : Model where
  toDraft := .offset y n
  expanded := (Draft.offset y n).asDeclared
  accepted := Draft.elaborate_offset y n

def Entry.offset (y : Float) (n : Int) : Entry where
  id := "eq[0]"
  origin := .continuous
  position := 0
  source := .simple (.binary .add (.var "x") (.lit (.real y))) (.lit (.int n))
  exprs := [.binary .add (.var "x") (.lit (.real y)), .lit (.int n)]
  assigned := none
  multiplicity := 1
  references := [⟨"x", .value⟩]

theorem Model.incidence_offset (y : Float) (n : Int) :
    (Model.offset y n).incidence true = .ok ⟨[.offset y n]⟩ := by
  cbv

theorem Model.components_offset (y : Float) (n : Int) :
    Incidence.components ⟨[.offset y n]⟩
      ((Model.offset y n).matching ⟨[.offset y n]⟩ none).assignment = .ok [["eq[0]"]] := by
  cbv

theorem Model.pairs_offset (y : Float) (n : Int) :
    ((Model.offset y n).matching ⟨[Entry.offset y n]⟩ none).assignment.pairs =
      [("eq[0]", ⟨"x", .value⟩)] := by
  cbv

theorem solveFor_offset {y : Float} {n : Int} (hy : (Expr.lit (.real y)).isNumber 0 = false)
    (hn : beyondDouble n = true) :
    solveFor ⟨"x", .value⟩ (.binary .add (.var "x") (.lit (.real y))) (.lit (.int n)) =
      .error (.conversion .tooLarge) := by
  have hleft : Expr.IsAffine ⟨"x", .value⟩ (.binary .add (.var "x") (.lit (.real y)))
      ⟨.one, .lit (.real y)⟩ :=
    .add rfl (.self rfl) (.free rfl)
      (Affine.sum_eq_ok.mpr ⟨Expr.sum_zero Expr.isNumber_one_zero, Expr.zero_sum _⟩)
  have hright : Expr.IsAffine ⟨"x", .value⟩ (.lit (.int n)) ⟨.zero, .lit (.int n)⟩ := .free rfl
  have hzero : (Expr.lit (.int n)).isNumber 0 = false := by
    rw [Bool.eq_false_iff]
    intro hzero
    obtain rfl : n = 0 := by
      simpa [Expr.isNumber, Number.isBool, Number.same, Number.operand] using hzero
    revert hn
    decide +kernel
  have hnumerator : (Expr.lit (.int n)).difference (.lit (.real y)) =
      .error (.conversion .tooLarge) := by
    rw [Expr.difference, hy, hzero]
    simp [Expr.compute, Expr.number?, Number.isBool, Number.sub, Number.combine, Number.operand,
      doubleOf, hn, bind, Except.bind, Except.map, Except.mapError]
  rw [solveFor, hleft.affine?_eq, hright.affine?_eq]
  simp [bind, Except.bind, Affine.root?, Expr.difference_zero, Expr.isNumber_one_zero, hnumerator]

/-- The difference of the integer and the double is to be a double. -/
theorem Model.analyze_offset {y : Float} {n : Int}
    (hy : (Expr.lit (.real y)).isNumber 0 = false) (hn : beyondDouble n = true) :
    (Model.offset y n).analyze .standard = .error (.conversion .tooLarge) := by
  have hmember : Incidence.member ⟨[.offset y n]⟩
      ((Model.offset y n).matching ⟨[.offset y n]⟩ none).assignment "eq[0]" =
        .ok (.offset y n, ⟨"x", .value⟩) := by
    rw [Incidence.member_eq_ok ((Model.offset y n).nodup_ids (Model.incidence_offset y n))]
    refine ⟨List.mem_singleton_self _, rfl, ?_⟩
    rw [Model.pairs_offset]
    exact List.mem_singleton_self _
  have hself : (Entry.offset y n).isSelfDependent ⟨"x", .value⟩ = false := rfl
  have hblock : Block.ofMember (.offset y n) ⟨"x", .value⟩ = .error (.conversion .tooLarge) := by
    have hsolution : (Entry.offset y n).solution? ⟨"x", .value⟩ = .error (.conversion .tooLarge) :=
      solveFor_offset hy hn
    rw [Block.ofMember, if_neg (Bool.eq_false_iff.mp hself), hsolution]
    rfl
  have hblocks : Incidence.blocks ⟨[.offset y n]⟩
      ((Model.offset y n).matching ⟨[.offset y n]⟩ none).assignment =
        .error (.conversion .tooLarge) := by
    rw [Incidence.blocks, Model.components_offset]
    simp [bind, Except.bind, hmember, Block.ofMembers, hblock, pure, Except.pure]
  have hmatching : (Model.offset y n).findMatching ⟨[.offset y n]⟩ none =
      .ok ((Model.offset y n).matching ⟨[.offset y n]⟩ none) := rfl
  rw [Model.analyze, Settings.standard, Model.incidence_offset]
  simp [bind, Except.bind, Settings.note, Settings.isWritable, whenWritable, hmatching, hblocks]

/-- The model `x + 0.5 = 2 ^ 1024` is accepted, well posed and linear in its unknown, but `0.5` is
to be subtracted from an integer that no double comes near. -/
theorem immense_offset_fails :
    (Model.offset 0.5 (Decimal.twos 1024)).analyze .standard = .error (.conversion .tooLarge) :=
  Model.analyze_offset (by decide +kernel) (by decide +kernel)

end Causality
