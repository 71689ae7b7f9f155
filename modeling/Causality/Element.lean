/-!
# Elements of arrays

An array has one element for each way to choose a subscript from 1 up to each of its extents. The
elements are named with their subscripts and listed in row-major order. The subscripts are read
back from the name, so that an element is recognised without a look at the others.
-/

namespace Causality

/-- The name of one element of an array, `x[1,2]`. -/
def elementName (name : String) (indices : List Int) : String :=
  name ++ "[" ++ ",".intercalate (indices.map toString) ++ "]"

/-- The subscripts of an array with the given extents, in row-major order. -/
def rowMajor : List Nat → List (List Int)
  | [] => [[]]
  | extent :: rest =>
    (List.range extent).flatMap fun (i : Nat) => (rowMajor rest).map fun is => (i + 1 : Int) :: is

/-- One subscript from 1 on for each extent. -/
def withinExtents : List Nat → List Int → Bool
  | [], [] => true
  | extent :: extents, i :: is => 1 ≤ i && i ≤ extent && withinExtents extents is
  | _, _ => false

/-- Row-major order: the first subscript that differs decides. -/
def rowMajorLE : List Int → List Int → Bool
  | i :: is, j :: js => i < j || (i = j && rowMajorLE is js)
  | _, _ => true

/-- One number for each extent, each with one character behind it. -/
def readSubscripts : List Nat → List Char → List Int
  | [], _ => []
  | _ :: extents, cs =>
    Nat.ofDigitChars 10 (cs.takeWhile Char.isDigit) 0 ::
      readSubscripts extents ((cs.dropWhile Char.isDigit).drop 1)

/-- The subscripts of the element of that name, if it is one of the array. -/
def subscriptsOf? (name : String) (extents : List Nat) (element : String) : Option (List Int) :=
  let indices := readSubscripts extents (element.toList.drop (name.length + 1))
  if withinExtents extents indices ∧ elementName name indices = element then some indices else none

theorem mem_rowMajor {extents : List Nat} {indices : List Int} :
    indices ∈ rowMajor extents ↔ withinExtents extents indices = true := by
  induction extents generalizing indices with
  | nil => cases indices <;> simp [rowMajor, withinExtents]
  | cons extent extents ih =>
    cases indices with
    | nil => simp [rowMajor, withinExtents]
    | cons i is =>
      simp only [rowMajor, List.mem_flatMap, List.mem_range, List.mem_map, List.cons.injEq,
        withinExtents, Bool.and_eq_true, decide_eq_true_eq]
      constructor
      · rintro ⟨k, hk, js, hjs, rfl, rfl⟩
        exact ⟨⟨by omega, by omega⟩, ih.mp hjs⟩
      · rintro ⟨⟨h1, h2⟩, his⟩
        exact ⟨(i - 1).toNat, by omega, is, ih.mpr his, by omega, rfl⟩

theorem isDigit_of_mem_repr {n : Nat} {c : Char} (h : c ∈ n.repr.toList) : c.isDigit = true := by
  rw [Nat.toList_repr] at h
  exact Nat.isDigit_of_mem_toDigits (by decide) (by decide) h

theorem takeWhile_digits (n : Nat) {c : Char} (hc : c.isDigit = false) (cs : List Char) :
    (n.repr.toList ++ c :: cs).takeWhile Char.isDigit = n.repr.toList := by
  rw [List.takeWhile_append_of_pos fun d hd => isDigit_of_mem_repr hd]
  simp [hc]

theorem dropWhile_digits (n : Nat) {c : Char} (hc : c.isDigit = false) (cs : List Char) :
    (n.repr.toList ++ c :: cs).dropWhile Char.isDigit = c :: cs := by
  rw [List.dropWhile_append_of_pos fun d hd => isDigit_of_mem_repr hd]
  simp [hc]

/-- The subscripts that a name was formed with are read back. -/
theorem readSubscripts_intercalate {extents : List Nat} {indices : List Int}
    (h : withinExtents extents indices = true) :
    readSubscripts extents ((",".intercalate (indices.map toString)).toList ++ [']']) =
      indices := by
  induction extents generalizing indices with
  | nil => cases indices <;> simp_all [withinExtents, readSubscripts]
  | cons extent extents ih =>
    cases indices with
    | nil => simp [withinExtents] at h
    | cons i is =>
      simp only [withinExtents, Bool.and_eq_true, decide_eq_true_eq] at h
      obtain ⟨n, rfl⟩ := Int.eq_ofNat_of_zero_le (show 0 ≤ i by omega)
      have hn : (toString (n : Int)).toList = n.repr.toList := rfl
      have digits : Nat.ofDigitChars 10 n.repr.toList 0 = n := by simp
      cases is with
      | nil =>
        cases extents with
        | cons => simp [withinExtents] at h
        | nil =>
          simp only [List.map_cons, List.map_nil, String.intercalate_singleton, hn,
            readSubscripts, takeWhile_digits n (show Char.isDigit ']' = false from rfl), digits]
      | cons j js =>
        have tail := ih h.2
        simp only [List.map_cons, String.intercalate_cons_cons, String.toList_append, hn,
          List.append_assoc] at tail ⊢
        have comma : ",".toList = [','] := rfl
        simp only [comma, List.cons_append, readSubscripts,
          takeWhile_digits n (show Char.isDigit ',' = false from rfl),
          dropWhile_digits n (show Char.isDigit ',' = false from rfl), List.drop_succ_cons,
          List.drop_zero, digits]
        exact congrArg (_ :: ·) tail

theorem subscriptsOf?_eq_some {name : String} {extents : List Nat} {element : String}
    {indices : List Int} :
    subscriptsOf? name extents element = some indices ↔
      indices ∈ rowMajor extents ∧ elementName name indices = element := by
  simp only [subscriptsOf?, Option.ite_none_right_eq_some, mem_rowMajor, Option.some.injEq]
  constructor
  · rintro ⟨⟨within, named⟩, rfl⟩
    exact ⟨within, named⟩
  · rintro ⟨within, rfl⟩
    have chars : (elementName name indices).toList.drop (name.length + 1) =
        (",".intercalate (indices.map toString)).toList ++ [']'] := by
      simp [elementName, ← String.length_toList, List.drop_append]
    rw [chars, readSubscripts_intercalate within]
    exact ⟨⟨within, rfl⟩, rfl⟩

end Causality
