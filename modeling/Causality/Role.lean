/-!
# Roles of variables

States appear differentiated; algebraic variables do not; discrete ones change only at events.
Parameters, constants and inputs are known, all others are solved for.
-/

namespace Causality

inductive Role where
  | state
  | algebraic
  | discreteReal
  | discreteValued
  | parameter
  | constant
  | input
  | output
deriving DecidableEq

namespace Role

def all : List Role :=
  [state, algebraic, discreteReal, discreteValued, parameter, constant, input, output]

def name : Role → String
  | state => "STATE"
  | algebraic => "ALGEBRAIC"
  | discreteReal => "DISCRETE_REAL"
  | discreteValued => "DISCRETE_VALUED"
  | parameter => "PARAMETER"
  | constant => "CONSTANT"
  | input => "INPUT"
  | output => "OUTPUT"

def title : Role → String
  | state => "State"
  | algebraic => "Algebraic"
  | discreteReal => "Discrete Real"
  | discreteValued => "Discrete Valued"
  | parameter => "Parameter"
  | constant => "Constant"
  | input => "Input"
  | output => "Output"

def ofName? (s : String) : Option Role := all.find? fun r => r.name = s

def isDiscrete : Role → Bool
  | discreteReal | discreteValued => true
  | _ => false

def isKnown : Role → Bool
  | parameter | constant | input => true
  | _ => false

/-- Fixed before the simulation starts. -/
def isParameter : Role → Bool
  | parameter | constant => true
  | _ => false

end Role

end Causality
