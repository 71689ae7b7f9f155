/-!
# Issues

What is found when a decomposition is checked. An error says that the system is not well posed.
-/

namespace Causality

inductive Severity where
  | error
  | warning
  | info
deriving DecidableEq

namespace Severity

def all : List Severity := [error, warning, info]

def name : Severity → String
  | error => "error"
  | warning => "warning"
  | info => "info"

def label : Severity → String
  | error => "ERROR"
  | warning => "WARNING"
  | info => "INFO"

def ofName? (s : String) : Option Severity := all.find? fun severity => severity.name = s

end Severity

inductive Category where
  | overDetermined
  | underDetermined
  | structurallySingular
  | duplicateAssignment
  | blockMismatch
  | incompleteSearch
  | algebraicLoop
deriving DecidableEq

namespace Category

def all : List Category :=
  [overDetermined, underDetermined, structurallySingular, duplicateAssignment, blockMismatch,
   incompleteSearch, algebraicLoop]

def name : Category → String
  | overDetermined => "over_determined"
  | underDetermined => "under_determined"
  | structurallySingular => "structurally_singular"
  | duplicateAssignment => "duplicate_assignment"
  | blockMismatch => "block_mismatch"
  | incompleteSearch => "incomplete_search"
  | algebraicLoop => "algebraic_loop"

def ofName? (s : String) : Option Category := all.find? fun category => category.name = s

end Category

structure Issue where
  severity : Severity
  category : Category
  message : String
  /-- An equation, an unknown or a block. -/
  location : Option String

namespace Issue

def error (category : Category) (message : String) (location : Option String) : Issue :=
  ⟨.error, category, message, location⟩

def isError (i : Issue) : Bool := i.severity = .error

def text (i : Issue) : String :=
  "[" ++ i.severity.label ++ "] " ++ i.category.name ++ ": " ++ i.message ++
    match i.location with
    | none | some "" => ""
    | some place => " at " ++ place

end Issue

end Causality
