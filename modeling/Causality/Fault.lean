import Causality.Equation.Format
import Causality.Role
import Causality.Text.Quoted

/-!
# Faults

Why a declaration, an equation or a model is refused, and why a question has no answer. A fault
names its cause; `message` puts it into words. The message is written when the fault is met, and a
message with an integer that cannot be written fails in its turn. Structural properties of a
well-formed model, such as singularity, are no faults but issues of its plan.
-/

namespace Causality

inductive Fault where
  | emptyName
  | indexOnNonState (name : String) (role : Role)
  | negativeIndex (name : String) (index : Whole)
  | invalidShape (name : String) (shape : List Whole)
  /-- An array has more elements in one direction than can be counted. -/
  | uncountableExtent
  | unstorableExtent
  | missingSide
  | missingIndexVariable
  | zeroStep (index : String)
  /-- A loop that was not checked for it turns out to have step zero. -/
  | zeroRangeStep
  | arithmeticComparison (op : BinaryOp)
  | unknownNode (kind : String)
  | unexpandedLoop
  | nonIntegerSubscript (subscript : Expr)
  | variableSubscript (subscript : Expr)
  | conversion (cause : ConversionFault)
  /-- An integer has more digits than can be written. -/
  | unwritableInteger
  | missingElse (equation : Equation)
  | elseInWhen (equation : Equation)
  | noBranches (kind : ChoiceKind)
  | unbalanced (kind : ChoiceKind) (first other : List String)
  | duplicateVariable (name : String)
  | clashingElement (element name owner : String)
  | missingIndices (states : List String)
  | scatteredIndices (indices : List Whole) (states : Nat)
  | differentShapes (label : String) (equation : Equation) (arrays : List (String × List Whole))
  | scalarWithArray (label name : String) (equation : Equation)
  | notAnArray (label base name : String)
  | outOfRange (label name base : String) (shape : List Whole)
  | derOfExpression (label : String) (node : Expr)
  | derOfNonState (label name : String) (role : Role)
  | undeclared (equation symbol : String)
  | notAState (name model : String)
  | unknownKey (key : String)
  | emptyComponent
  | emptyBlock

/-- A shape as a list, `[2, 3]`. -/
def shapeList (shape : List Whole) : String := Text.list (shape.map Whole.text)

def ConversionFault.message : ConversionFault → String
  | tooLarge => "int too large to convert to float"
  | infinite => "cannot convert float infinity to integer"
  | notANumber => "cannot convert float NaN to integer"

namespace Fault

def message : Fault → String
  | emptyName => "Variable name must not be empty"
  | indexOnNonState name role =>
    "Variable '" ++ name ++ "' is " ++ role.name ++ ", only states carry a state_index"
  | negativeIndex name index =>
    "State '" ++ name ++ "' has negative state_index " ++ index.text
  | invalidShape name shape =>
    "Variable '" ++ name ++ "' has invalid shape " ++ Text.tuple (shape.map Whole.text)
  | uncountableExtent => "int too large for a count of elements"
  | unstorableExtent => "no memory for the subscripts of an array"
  | missingSide => "Simple equation needs both lhs and rhs"
  | missingIndexVariable => "For-equation needs an index variable"
  | zeroStep index => "for " ++ index ++ ": step must not be zero"
  | zeroRangeStep => "range() arg 3 must not be zero"
  | arithmeticComparison op => op.name ++ " is an arithmetic operator"
  | unknownNode kind => "Unknown expression node: " ++ kind
  | unexpandedLoop => "for-equations must be expanded before grouping"
  | nonIntegerSubscript subscript => "Subscript " ++ subscript.text ++ " is not an integer"
  | variableSubscript subscript =>
    "Subscript " ++ subscript.text ++ " is not a constant integer expression"
  | conversion cause => cause.message
  | unwritableInteger =>
    "Exceeds the limit (" ++ toString digitLimit ++ " digits) for integer string conversion"
  | missingElse equation => "if-equation has no else branch: " ++ equation.text
  | elseInWhen equation => "when-equation cannot have an else branch: " ++ equation.text
  | noBranches kind => kind.keyword ++ "-equation has no branches"
  | unbalanced kind first other =>
    "Branches of " ++ kind.keyword ++ "-equation assign different variables: " ++
      Text.quotedList first ++ " vs " ++ Text.quotedList other
  | duplicateVariable name => "Variable '" ++ name ++ "' already exists in model"
  | clashingElement element name owner =>
    "Element '" ++ element ++ "' of '" ++ name ++ "' clashes with '" ++ owner ++ "'"
  | missingIndices states => "States without state_index: " ++ Text.quotedList states
  | scatteredIndices indices states =>
    "state_index values " ++ Text.list (indices.map Whole.text) ++
      " are not a permutation of 0.." ++ toString ((states : Int) - 1)
  | differentShapes label equation arrays =>
    label ++ ": array shapes do not match in " ++ equation.text ++ " (" ++
      ", ".intercalate (arrays.map fun (name, shape) => name ++ shapeList shape) ++ ")"
  | scalarWithArray label name equation =>
    label ++ ": scalar '" ++ name ++ "' is equated with an array in " ++ equation.text
  | notAnArray label base name =>
    label ++ ": '" ++ base ++ "' is not an array but is referenced as " ++ name
  | outOfRange label name base shape =>
    label ++ ": " ++ name ++ " is out of range for " ++ base ++ shapeList shape
  | derOfExpression label node =>
    label ++ ": der() must be applied to a variable, got " ++ node.text
  | derOfNonState label name role =>
    label ++ ": der(" ++ name ++ ") applied to " ++ role.name ++
      " variable, only states may be differentiated"
  | undeclared equation symbol =>
    "Equation " ++ equation ++ " references undeclared variable '" ++ symbol ++ "'"
  | notAState name model => "'" ++ name ++ "' is not a state of model '" ++ model ++ "'"
  | unknownKey key => key
  | emptyComponent => "list index out of range"
  | emptyBlock => "tuple index out of range"

def isWritable : Fault → Bool
  | negativeIndex _ index => index.isWritable
  | invalidShape _ shape | outOfRange _ _ _ shape => shape.all Whole.isWritable
  | nonIntegerSubscript e | variableSubscript e | derOfExpression _ e => e.isWritable
  | missingElse e | elseInWhen e | scalarWithArray _ _ e => e.isWritable
  | scatteredIndices indices _ => indices.all Whole.isWritable
  | differentShapes _ e arrays =>
    e.isWritable && arrays.all fun (_, shape) => shape.all Whole.isWritable
  | _ => true

/-- What is met of the fault, once its message is written. -/
def raised (fault : Fault) : Fault := if fault.isWritable then fault else unwritableInteger

theorem raised_eq_or (fault : Fault) :
    fault.raised = fault ∨ fault.raised = unwritableInteger ∧ fault.isWritable = false := by
  unfold raised
  split
  · exact .inl rfl
  · next h => exact .inr ⟨rfl, by simpa using h⟩

end Fault

/-- What is made of a text that holds integers, which can be had only if they can be written. -/
def whenWritable {α : Type} (writable : Bool) (result : α) : Except Fault α :=
  if writable then .ok result else .error .unwritableInteger

section

variable {α : Type} {writable : Bool} {result a : α} {fault : Fault}

theorem whenWritable_eq_ok :
    whenWritable writable result = .ok a ↔ writable = true ∧ result = a := by
  cases writable <;> simp [whenWritable]

theorem whenWritable_eq_error :
    whenWritable writable result = .error fault ↔
      writable = false ∧ fault = .unwritableInteger := by
  cases writable <;> simp [whenWritable, eq_comm]

end

end Causality
