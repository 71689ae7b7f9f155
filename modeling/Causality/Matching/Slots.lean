import Causality.Incidence

/-!
# Slots

The unknowns that equations are matched with, in the order of declaration: the derivative of each
state element that is differentiated; the value of a state element only if an initial equation
constrains it, since it is known during a simulation otherwise; the value of every element of the
other unknown variables.
-/

namespace Causality

namespace Incidence

def differentiates (g : Incidence) (element : String) : Bool :=
  g.entries.any fun e => e.references.contains ⟨element, .derivative⟩

/-- An initial equation references the element, as value or as derivative. -/
def constrains (g : Incidence) (element : String) : Bool :=
  g.entries.any fun e => e.origin = .initial && e.references.any fun o => o.name = element

end Incidence

namespace Variable

/-- The slots of one scalar name of a variable. -/
def elementSlots (v : Variable) (g : Incidence) (element : String) : List Occurrence :=
  if v.isState then
    (if g.differentiates element then [⟨element, .derivative⟩] else []) ++
      if g.constrains element then [⟨element, .value⟩] else []
  else [⟨element, .value⟩]

def slots (v : Variable) (g : Incidence) : List Occurrence :=
  if v.isKnown then [] else v.elementNames.flatMap (v.elementSlots g)

end Variable

def Model.slots (m : Model) (g : Incidence) : List Occurrence :=
  m.vars.flatMap fun v => v.slots g

end Causality
