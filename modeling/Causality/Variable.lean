import Causality.Element
import Causality.Fault

/-!
# Variables

A declaration gives a variable its role, and an array its shape. Elements of an array are named
with subscripts from 1 on, in row-major order. A `Variable` is a declaration that passed every
check.
-/

namespace Causality

structure Declaration where
  name : String
  role : Role
  /-- The position in the state vector. -/
  stateIndex : Option Whole
  start : Option Number
  shape : Option (List Whole)
  description : String
  unit : String
  minValue : Option Number
  maxValue : Option Number
  nominal : Option Number

namespace Declaration

def fault? (d : Declaration) : Option Fault :=
  if d.name = "" then some .emptyName
  else indexFault? <|> shapeFault?
where
  indexFault? : Option Fault :=
    match d.stateIndex with
    | none => none
    | some index =>
      if d.role ≠ .state then some (.indexOnNonState d.name d.role)
      else if index.toInt < 0 then some (Fault.negativeIndex d.name index).raised
      else none
  shapeFault? : Option Fault :=
    match d.shape with
    | none => none
    | some extents =>
      if extents.isEmpty ∨ extents.any (·.toInt < 1) then
        some (Fault.invalidShape d.name extents).raised
      else none

end Declaration

structure Variable extends Declaration where
  sound : toDeclaration.fault? = none

def Declaration.check (d : Declaration) : Except Fault Variable :=
  match h : d.fault? with
  | some fault => .error fault
  | none => .ok ⟨d, h⟩

namespace Variable

def isState (v : Variable) : Bool := v.role = .state

def isKnown (v : Variable) : Bool := v.role.isKnown

def isArray (v : Variable) : Bool := v.shape.isSome

def extents (v : Variable) : Option (List Nat) :=
  v.shape.map fun shape => shape.map fun n => n.toInt.toNat

/-- An extent is a signed number of 64 bits, and memory has to hold the subscripts up to it. -/
def extentFault? (extent : Nat) : Option Fault :=
  if Decimal.twos 63 ≤ extent then some .uncountableExtent
  else if Decimal.twos 32 ≤ extent then some .unstorableExtent
  else none

def checkExtents (v : Variable) : Except Fault Unit :=
  match (v.extents.getD []).findSome? extentFault? with
  | some fault => .error fault
  | none => .ok ()

/-- The subscripts of every element; a scalar has none. -/
def elementIndices (v : Variable) : List (List Int) :=
  match v.extents with
  | none => []
  | some extents => rowMajor extents

def elementNames (v : Variable) : List String :=
  if v.isArray then v.elementIndices.map (elementName v.name) else [v.name]

def covers (v : Variable) (element : String) : Bool :=
  match v.extents with
  | none => element = v.name
  | some extents => (subscriptsOf? v.name extents element).isSome

theorem covers_iff {v : Variable} {element : String} :
    v.covers element = true ↔ element ∈ v.elementNames := by
  cases h : v.shape <;>
    simp [covers, elementNames, elementIndices, extents, isArray, h, Option.isSome_iff_exists,
      subscriptsOf?_eq_some]

/-- The scalar names that a reference to the variable stands for: all of them, for a bare array. -/
def scalarNames (v : Variable) (name : String) : List String :=
  if v.covers name then [name] else v.elementNames

def isWritable (v : Variable) : Bool :=
  (v.shape.getD []).all Whole.isWritable && v.start.all Number.isWritable

def text (v : Variable) : String :=
  v.name ++
    (match v.shape with
      | none => ""
      | some shape => "[" ++ ",".intercalate (shape.map Whole.text) ++ "]") ++
    (match v.start with
      | none => ""
      | some value => "(start=" ++ value.text ++ ")") ++
    (if v.unit = "" then "" else "[" ++ v.unit ++ "]")

end Variable

end Causality
