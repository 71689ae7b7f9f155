import Causality.Incidence

/-!
# Blocks

A block is one step of the evaluation order: a scalar one computes a single unknown, an algebraic
loop solves several equations at once. A scalar block is solvable if the unknown is known as an
expression; otherwise it is implicit.
-/

namespace Causality

inductive BlockKind where
  | scalar
  | loop
deriving DecidableEq

namespace BlockKind

def name : BlockKind → String
  | scalar => "scalar"
  | loop => "algebraic_loop"

def ofName? (s : String) : Option BlockKind := [scalar, loop].find? fun k => k.name = s

end BlockKind

structure Block where
  kind : BlockKind
  entries : List Entry
  slots : List Occurrence
  solution : Option Expr

namespace Block

def ids (b : Block) : List String := b.entries.map (·.id)

def unknownNames (b : Block) : List String := b.slots.map (·.text)

def size (b : Block) : Nat := b.entries.length

def isScalar (b : Block) : Bool := b.kind = .scalar

def isLoop (b : Block) : Bool := b.kind = .loop

def isSolvable (b : Block) : Bool := b.isScalar && b.solution.isSome

def implicitText (b : Block) : Except Fault String :=
  whenWritable (b.entries.all Entry.isWritable)
    ((if b.isLoop then "loop " else "implicit ") ++ Text.quotedList b.unknownNames ++ " <- " ++
      ", ".intercalate (b.entries.map fun e => e.id ++ ": " ++ e.text))

/-- The assignment that a solvable block stands for, so the block has to have an unknown and an
equation. The solution may hold computed literals. -/
def assignmentText (b : Block) (solution : Expr) : Except Fault String :=
  match b.unknownNames, b.ids with
  | [], _ => .error .emptyBlock
  | name :: _, ids =>
    if !solution.isWritable then .error .unwritableInteger
    else
      match ids with
      | [] => .error .emptyBlock
      | id :: _ => .ok (name ++ " := " ++ solution.text ++ "    (" ++ id ++ ")")

def text (b : Block) : Except Fault String :=
  match b.isScalar, b.solution with
  | true, some solution => b.assignmentText solution
  | _, _ => b.implicitText

end Block

end Causality
