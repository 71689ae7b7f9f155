import Causality.Model.Basic
import Causality.Occurrence

/-!
# Incidence

The scalar equations to be solved, each with the unknowns that it references. Known variables and
everything below a left limit are not recorded. A bare array, which is left only inside reductions
and conditions, stands for all of its elements.
-/

namespace Causality

/-- One scalar equation of the structural problem. The position is its place in the order of
declaration. -/
structure Entry where
  id : String
  origin : Section
  position : Nat
  source : Equation
  exprs : List Expr
  assigned : Option String
  multiplicity : Nat
  /-- One item for each time an unknown is referenced. -/
  references : List Occurrence

namespace Entry

def unknowns (e : Entry) : List Occurrence := e.references.eraseDups

def count (e : Entry) (o : Occurrence) : Nat := e.references.count o

def text (e : Entry) : String :=
  if e.source.isSimple then e.source.text
  else
    match e.assigned with
    | none | some "" => e.source.text
    | some name => e.source.text ++ " [" ++ name ++ "]"

def isWritable (e : Entry) : Bool := e.source.isWritable

/-- A row of the incidence matrix. A column that is listed twice is marked at its last place. -/
def marks (e : Entry) : List Occurrence → List Nat
  | [] => []
  | o :: rest => (if e.references.contains o && !rest.contains o then 1 else 0) :: e.marks rest

end Entry

structure Incidence where
  entries : List Entry

namespace Incidence

def ids (g : Incidence) : List String := g.entries.map (·.id)

def entry? (g : Incidence) (id : String) : Option Entry := g.entries.find? fun e => e.id = id

/-- The entry that a table by ids holds, if several have the id. -/
def latest? (g : Incidence) (id : String) : Option Entry :=
  g.entries.reverse.find? fun e => e.id = id

def entry (g : Incidence) (id : String) : Except Fault Entry :=
  match g.entry? id with
  | some e => .ok e
  | none => .error (.unknownKey id)

def matrix (g : Incidence) (columns : List Occurrence) (rows : List String) :
    Except Fault (List (List Nat)) :=
  rows.mapM fun id => do return (← g.entry id).marks columns

end Incidence

/-- A residual of an expanded equation, before its references are resolved. -/
structure Row where
  id : String
  origin : Section
  source : Equation
  residual : Residual

def Variable.occurrencesAt (v : Variable) (site : RefSite) : List Occurrence :=
  if site.inPre || v.isKnown then []
  else
    (v.scalarNames site.name).map fun element =>
      ⟨element, if site.inDer then .derivative else .value⟩

namespace Model

/-- The variable that covers a name, or the array of that name. -/
def referent (m : Model) (id name : String) : Except Fault Variable :=
  match m.owner? name <|> m.declared? name with
  | some v => .ok v
  | none => .error (.undeclared id name)

def occurrencesAt (m : Model) (id : String) (site : RefSite) :
    Except Fault (List Occurrence) := do
  return (← m.referent id site.name).occurrencesAt site

def occurrences (m : Model) (id : String) (es : List Expr) : Except Fault (List Occurrence) := do
  let parts ← es.mapM fun e => do
    return (← (← e.refs).mapM (m.occurrencesAt id)).flatten
  return parts.flatten

/-- The rows of one scalar equation. Several residuals are told apart by their number. -/
def rowsOf (origin : Section) (l : Labelled) : Except Fault (List Row) := do
  let residuals ← l.equation.residuals
  return residuals.zipIdx.map fun (r, k) =>
    { id := if residuals.length = 1 then l.label else l.label ++ "#" ++ toString k
      origin := origin
      source := l.equation
      residual := r }

def solvedSections (includeInitial : Bool) : List Section :=
  [.continuous, .discrete] ++ if includeInitial then [.initial] else []

def rows (m : Model) (includeInitial : Bool) : Except Fault (List Row) := do
  let parts ← (solvedSections includeInitial).mapM fun s => do
    return (← (m.expanded s).mapM (rowsOf s)).flatten
  return parts.flatten

def incidence (m : Model) (includeInitial : Bool) : Except Fault Incidence := do
  let entries ← (← m.rows includeInitial).zipIdx.mapM fun (row, position) => do
    return {
      id := row.id
      origin := row.origin
      position := position
      source := row.source
      exprs := row.residual.exprs
      assigned := row.residual.assigned
      multiplicity := row.residual.multiplicity
      references := ← m.occurrences row.id row.residual.exprs : Entry }
  return ⟨entries⟩

end Model

end Causality
