import Causality.Model.Draft

/-!
# Checks of the declarations

Variables have different names, no scalar name is covered twice, and the positions of the states,
if any is given, are all given and run from 0 on without gap or repetition.
-/

namespace Causality

/-- The first element of a variable that an earlier variable covers, with the earlier one. Arrays
of different names share no element, so only a scalar is named like an element of an array. -/
def clash? (earlier : List Variable) (v : Variable) : Option (String × Variable) :=
  match v.extents with
  | none => (ownerOf? earlier v.name).map fun owner => (v.name, owner)
  | some extents =>
    let named := earlier.filterMap fun u =>
      if u.isArray then none
      else (subscriptsOf? v.name extents u.name).map fun indices => (indices, u)
    let first := named.find? fun (indices, _) =>
      named.all fun (others, _) => rowMajorLE indices others
    first.map fun (_, u) => (u.name, u)

def checkNames (earlier : List Variable) : List Variable → Except Fault Unit
  | [] => .ok ()
  | v :: rest =>
    if (declaredAs? earlier v.name).isSome then .error (.duplicateVariable v.name)
    else do
      v.checkExtents
      match clash? earlier v with
      | some (element, owner) => throw (.clashingElement element v.name owner.name)
      | none => checkNames (earlier ++ [v]) rest

def checkPositions (states : List Variable) : Except Fault Unit :=
  let given := states.filterMap (·.stateIndex)
  let sorted := given.mergeSort fun a b => a.toInt ≤ b.toInt
  if given.isEmpty then .ok ()
  else if given.length ≠ states.length then
    .error (.missingIndices ((states.filter (·.stateIndex.isNone)).map (·.name)))
  else if sorted.map Whole.toInt ≠ (List.range states.length).map Int.ofNat then
    .error (Fault.scatteredIndices sorted states.length).raised
  else .ok ()

end Causality
