import Causality.Model.Basic
import Causality.Proofs.Fallible
import Mathlib.Data.List.Nodup
import Mathlib.Data.List.TakeWhile

/-!
# Labels are told apart

Labels are glued from names that a user chooses and from numbers, without escapes. They still
differ: two labels that come from one equation agree up to the place where a number decides
between them, and a number is always followed by something that is no digit. So no continuation of
two labels makes them equal, as long as it does not start with a digit.
-/

namespace Causality

/-- A number in front of the text ends there. -/
def Stops (x : List Char) : Prop := ∀ c ∈ x.head?, c.isDigit = false

theorem stops_nil : Stops [] := fun _ h => by cases h

theorem stops_cons {c : Char} (hc : c.isDigit = false) (x : List Char) : Stops (c :: x) := by
  intro d hd
  rw [List.head?_cons, Option.mem_some_iff] at hd
  exact hd ▸ hc

theorem Stops.append {x y : List Char} (hx : Stops x) (hy : Stops y) : Stops (x ++ y) := by
  cases x with
  | nil => exact hy
  | cons c x => exact stops_cons (hx c rfl) _

theorem takeWhile_isDigit_append {x : List Char} (n : Nat) (hx : Stops x) :
    (n.repr.toList ++ x).takeWhile Char.isDigit = n.repr.toList := by
  cases x with
  | nil =>
    rw [List.append_nil, List.takeWhile_eq_self_iff]
    exact fun c hc => isDigit_of_mem_repr hc
  | cons c x => exact takeWhile_digits n (hx c rfl) x

theorem eq_of_repr_append {n k : Nat} {x y : List Char} (hx : Stops x) (hy : Stops y)
    (h : n.repr.toList ++ x = k.repr.toList ++ y) : n = k := by
  have htake := congrArg (List.takeWhile Char.isDigit) h
  rw [takeWhile_isDigit_append n hx, takeWhile_isDigit_append k hy] at htake
  simpa using congrArg (fun cs => Nat.ofDigitChars 10 cs 0) htake

theorem notMem_repr {c : Char} (hc : c.isDigit = false) (n : Nat) : c ∉ n.repr.toList := by
  intro h
  rw [isDigit_of_mem_repr h] at hc
  cases hc

theorem notMem_toString {c : Char} (hc : c.isDigit = false) (hdash : c ≠ '-') (i : Int) :
    c ∉ (toString i).toList := by
  rw [Int.toString_eq_repr, Int.repr_eq_if]
  split_ifs
  · exact notMem_repr hc _
  · simp only [String.toList_append, List.mem_append, not_or]
    exact ⟨by simpa using hdash, notMem_repr hc _⟩

/-- The first mark tells what stands before it from what follows. -/
theorem eq_of_mark {c : Char} {a b x y : List Char} (ha : c ∉ a) (hb : c ∉ b)
    (h : a ++ c :: x = b ++ c :: y) : a = b ∧ x = y := by
  induction a generalizing b with
  | nil =>
    cases b with
    | nil => exact ⟨rfl, (List.cons.inj h).2⟩
    | cons d b => exact absurd ((List.cons.inj h).1 ▸ List.mem_cons_self) hb
  | cons e a ih =>
    cases b with
    | nil => exact absurd ((List.cons.inj h).1 ▸ List.mem_cons_self) ha
    | cons d b =>
      obtain ⟨rfl, htail⟩ := List.cons.inj h
      obtain ⟨rfl, hxy⟩ := ih (fun hm => ha (List.mem_cons_of_mem _ hm))
        (fun hm => hb (List.mem_cons_of_mem _ hm)) htail
      exact ⟨rfl, hxy⟩

theorem toString_injective {i j : Int} (h : (toString i).toList = (toString j).toList) :
    i = j := by
  have hdash : ∀ n : Nat, '-' ∉ n.repr.toList := notMem_repr (by decide)
  have hnat : ∀ {n k : Nat}, n.repr.toList = k.repr.toList → n = k := by
    intro n k hnk
    exact eq_of_repr_append stops_nil stops_nil (by rw [hnk])
  simp only [Int.toString_eq_repr, Int.repr_eq_if] at h
  split_ifs at h with hi hj hj
  · have := hnat h
    omega
  · exact absurd (h ▸ by simp) (hdash i.toNat)
  · exact absurd (h ▸ by simp) (hdash j.toNat)
  · simp only [String.toList_append, List.append_cancel_left_eq] at h
    have := hnat h
    omega

/-! ### Labels that stay different -/

def Apart (a b : String) : Prop :=
  ∀ x y, Stops x → Stops y → a.toList ++ x ≠ b.toList ++ y

theorem Apart.ne {a b : String} (h : Apart a b) : a ≠ b := by
  rintro rfl
  exact h [] [] stops_nil stops_nil rfl

/-- The labels below `label`. -/
structure Spread (label : String) (labels : List String) : Prop where
  continued : ∀ l ∈ labels, ∃ x, Stops x ∧ l.toList = label.toList ++ x
  apart : labels.Pairwise Apart

theorem Spread.single (label : String) : Spread label [label] where
  continued l hl := ⟨[], stops_nil, by simp [List.mem_singleton.mp hl]⟩
  apart := List.pairwise_singleton _ _

/-- Labels below labels that are told apart. -/
theorem Spread.flatten {label : String} {labels : List String} {parts : List (List String)}
    (h : Spread label labels) (hparts : List.Forall₂ Spread labels parts) :
    Spread label parts.flatten where
  continued l hl := by
    obtain ⟨part, hpart, hl⟩ := List.mem_flatten.mp hl
    obtain ⟨above, habove, hspread⟩ := Forall₂.exists_left hparts hpart
    obtain ⟨x, hx, hax⟩ := h.continued above habove
    obtain ⟨y, hy, hly⟩ := hspread.continued l hl
    exact ⟨x ++ y, hx.append hy, by rw [hly, hax, List.append_assoc]⟩
  apart := by
    rw [List.pairwise_flatten]
    constructor
    · intro part hpart
      obtain ⟨_, _, hspread⟩ := Forall₂.exists_left hparts hpart
      exact hspread.apart
    · refine Forall₂.pairwise hparts ?_ h.apart
      intro a b as bs has hbs hab l hl l' hl' x y hx hy heq
      obtain ⟨v, hv, hlv⟩ := has.continued l hl
      obtain ⟨w, hw, hlw⟩ := hbs.continued l' hl'
      rw [hlv, hlw, List.append_assoc, List.append_assoc] at heq
      exact hab _ _ (hv.append hx) (hw.append hy) heq

/-- Labels that continue one label by numbers in front of something else. -/
theorem spread_map {ι : Type} {label : String} {xs : List ι} {f : ι → String}
    (hstart : ∀ i ∈ xs, ∃ c r, c.isDigit = false ∧ (f i).toList = label.toList ++ c :: r)
    (hne : xs.Nodup)
    (hinj : ∀ i ∈ xs, ∀ j ∈ xs, ∀ x y, Stops x → Stops y →
      (f i).toList ++ x = (f j).toList ++ y → i = j) : Spread label (xs.map f) where
  continued l hl := by
    obtain ⟨i, hi, rfl⟩ := List.mem_map.mp hl
    obtain ⟨c, r, hc, h⟩ := hstart i hi
    exact ⟨c :: r, stops_cons hc r, h⟩
  apart := by
    rw [List.pairwise_map]
    refine hne.imp_of_mem ?_
    intro i j hi hj hij x y hx hy heq
    exact hij (hinj i hi j hj x y hx hy heq)

theorem spread_numbered {label mark : String} {c : Char} (hc : c.isDigit = false)
    (hmark : mark.toList = [c]) {ks : List Nat} (hks : ks.Nodup) :
    Spread label (ks.map fun k => label ++ mark ++ toString k) := by
  refine spread_map (fun k _ => ⟨c, k.repr.toList, hc, by simp [hmark]⟩) hks ?_
  intro k _ k' _ x y hx hy h
  simp only [String.toList_append, hmark, List.append_assoc, List.append_cancel_left_eq] at h
  exact eq_of_repr_append hx hy h

theorem spread_bracketed (label text : String) {is : List Int} (his : is.Nodup) :
    Spread label (is.map fun i => label ++ "[" ++ text ++ toString i ++ "]") := by
  refine spread_map (fun i _ => ⟨'[', (text ++ toString i ++ "]").toList, by decide, ?_⟩) his ?_
  · simp [String.append_assoc]
  · intro i _ j _ x y _ _ h
    simp only [String.toList_append, List.append_assoc, List.append_cancel_left_eq] at h
    have hnot : ∀ i : Int, ']' ∉ (toString i).toList := notMem_toString (by decide) (by decide)
    exact toString_injective (eq_of_mark (hnot i) (hnot j) h).1

/-! ### Elements -/

theorem toList_elementName (name : String) (indices : List Int) :
    (elementName name indices).toList =
      name.toList ++ '[' :: ((",".intercalate (indices.map toString)).toList ++ [']']) := by
  simp [elementName]

theorem notMem_subscripts {c : Char} (hc : c.isDigit = false) (hdash : c ≠ '-')
    (hcomma : c ≠ ',') (indices : List Int) :
    c ∉ (",".intercalate (indices.map toString)).toList := by
  induction indices with
  | nil => simp
  | cons i is ih =>
    cases is with
    | nil => simpa using notMem_toString hc hdash i
    | cons j js =>
      rw [List.map_cons, List.map_cons, String.intercalate_cons_cons, ← List.map_cons]
      simp only [String.toList_append, List.mem_append, not_or]
      exact ⟨⟨notMem_toString hc hdash i, by simpa using hcomma⟩, ih⟩

theorem subscripts_singleton (i : Int) :
    (",".intercalate ([i].map toString)).toList = (toString i).toList := by
  rw [List.map_cons, List.map_nil, String.intercalate_singleton]

theorem subscripts_cons_cons (i j : Int) (js : List Int) :
    (",".intercalate ((i :: j :: js).map toString)).toList = (toString i).toList ++
      ',' :: (",".intercalate ((j :: js).map toString)).toList := by
  rw [List.map_cons, List.map_cons, String.intercalate_cons_cons, ← List.map_cons]
  simp

theorem subscripts_ne_nil (i : Int) (is : List Int) :
    (",".intercalate ((i :: is).map toString)).toList ≠ [] := by
  cases is with
  | nil =>
    rw [subscripts_singleton, Int.toString_eq_repr, Int.repr_eq_if]
    split_ifs <;> simp
  | cons j js =>
    rw [subscripts_cons_cons]
    exact List.append_ne_nil_of_right_ne_nil _ (List.cons_ne_nil _ _)

/-- The commas tell the subscripts apart. -/
theorem subscripts_injective {is js : List Int}
    (h : (",".intercalate (is.map toString)).toList =
      (",".intercalate (js.map toString)).toList) : is = js := by
  have hcomma : ∀ i : Int, ',' ∉ (toString i).toList := notMem_toString (by decide) (by decide)
  induction is generalizing js with
  | nil =>
    cases js with
    | nil => rfl
    | cons j js => exact absurd h.symm (subscripts_ne_nil j js)
  | cons i is ih =>
    cases js with
    | nil => exact absurd h (subscripts_ne_nil i is)
    | cons j js =>
      match is, js with
      | [], [] =>
        rw [subscripts_singleton, subscripts_singleton] at h
        rw [toString_injective h]
      | [], j' :: js =>
        rw [subscripts_singleton, subscripts_cons_cons] at h
        exact absurd (h ▸ by simp) (hcomma i)
      | i' :: is, [] =>
        rw [subscripts_singleton, subscripts_cons_cons] at h
        exact absurd (h ▸ by simp) (hcomma j)
      | i' :: is, j' :: js =>
        rw [subscripts_cons_cons, subscripts_cons_cons] at h
        obtain ⟨hij, hrest⟩ := eq_of_mark (hcomma i) (hcomma j) h
        rw [toString_injective hij, ih hrest]

theorem nodup_rowMajor (extents : List Nat) : (rowMajor extents).Nodup := by
  induction extents with
  | nil => exact List.nodup_singleton _
  | cons extent extents ih =>
    rw [rowMajor, List.nodup_flatMap]
    refine ⟨fun i _ => ih.map fun _ _ h => (List.cons.inj h).2, ?_⟩
    refine List.nodup_range.imp ?_
    intro i j hij is his hjs
    obtain ⟨_, _, rfl⟩ := List.mem_map.mp his
    obtain ⟨_, _, h⟩ := List.mem_map.mp hjs
    have := (List.cons.inj h).1
    omega

theorem spread_elements (label : String) (extents : List Nat) :
    Spread label ((rowMajor extents).map (elementName label)) := by
  refine spread_map (fun is _ => ⟨'[', _, by decide, toList_elementName label is⟩)
    (nodup_rowMajor extents) ?_
  intro is _ js _ x y _ _ h
  simp only [toList_elementName, List.append_assoc, List.append_cancel_left_eq, List.cons_append,
    List.cons.injEq, true_and, List.nil_append] at h
  have hnot : ∀ is : List Int, ']' ∉ (",".intercalate (is.map toString)).toList :=
    notMem_subscripts (by decide) (by decide) (by decide)
  exact subscripts_injective (eq_of_mark (hnot is) (hnot js) h).1

/-- The last bracket tells the name of an array from the subscripts of an element. -/
theorem elementName_injective {a b : String} {is js : List Int}
    (h : elementName a is = elementName b js) : a = b ∧ is = js := by
  have hnot : ∀ is : List Int,
      '[' ∉ ((",".intercalate (is.map toString)).toList ++ [']']).reverse := by
    intro is
    rw [List.mem_reverse, List.mem_append, not_or]
    exact ⟨notMem_subscripts (by decide) (by decide) (by decide) is, by decide⟩
  have hlist := congrArg (fun s => s.toList.reverse) h
  simp only [toList_elementName, List.reverse_append, List.reverse_cons, List.append_assoc,
    List.singleton_append] at hlist hnot
  obtain ⟨hsubscripts, hname⟩ := eq_of_mark (hnot is) (hnot js) hlist
  refine ⟨String.toList_inj.mp (List.reverse_inj.mp hname), subscripts_injective ?_⟩
  simpa using hsubscripts

end Causality
