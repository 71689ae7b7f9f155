import Causality.Equation.Format
import Causality.Model.Draft

/-!
# The text of models

A listing of the variables by role and of the declared equations by section. Empty groups are
left out.
-/

namespace Causality.Draft

def roleLines (d : Draft) (role : Role) : List String :=
  match d.withRole role with
  | [] => []
  | group =>
    ("\n  " ++ role.title ++ " (" ++ toString group.length ++ "):") ::
      group.map fun v => "    " ++ v.text

def sectionLines (d : Draft) (s : Section) : List String :=
  match d.equations s with
  | [] => []
  | group =>
    ("\n  " ++ s.title ++ " Equations (" ++ toString group.length ++ "):") ::
      group.map fun e => "    " ++ e.text

/-- Every variable and every equation is listed. -/
def isWritable (d : Draft) : Bool :=
  d.vars.all Variable.isWritable && Section.all.all fun s => (d.equations s).all Equation.isWritable

def text (d : Draft) : Except Fault String :=
  whenWritable d.isWritable ("\n".intercalate (
    ("Model: " ++ d.name) ::
      (if d.description = "" then [] else ["  Description: " ++ d.description]) ++
      Role.all.flatMap d.roleLines ++ Section.all.flatMap d.sectionLines))

end Causality.Draft
