/-!
# Occurrences

An unknown as it appears in an equation: the value of a scalar, or its derivative. The same pairs
serve as slots, the unknowns that equations are matched with.
-/

namespace Causality

inductive OccurrenceKind where
  | value
  | derivative
deriving DecidableEq

namespace OccurrenceKind

def name : OccurrenceKind → String
  | value => "value"
  | derivative => "derivative"

def ofName? (s : String) : Option OccurrenceKind := [value, derivative].find? fun k => k.name = s

end OccurrenceKind

structure Occurrence where
  name : String
  kind : OccurrenceKind
deriving DecidableEq

namespace Occurrence

def isDerivative (o : Occurrence) : Bool := o.kind = .derivative

def text (o : Occurrence) : String :=
  if o.isDerivative then "der(" ++ o.name ++ ")" else o.name

end Occurrence

end Causality
