import Causality.Fault

/-!
# Traversals of expressions

The direct subexpressions of a node, all nodes in pre-order, and the sites at which variables are
referenced. Every traversal refuses a foreign node, since what it refers to cannot be seen. The
lists of expressions still to visit shrink in total `size`, so the traversals end.
-/

namespace Causality

namespace Expr

/-- The direct subexpressions from left to right. A foreign node shows none. -/
def parts : Expr → List Expr
  | lit _ => []
  | ref _ subscripts => subscripts
  | unary _ operand => [operand]
  | binary _ left right => [left, right]
  | call _ arguments => arguments
  | cond condition whenTrue whenFalse => [condition, whenTrue, whenFalse]
  | der operand => [operand]
  | pre operand => [operand]
  | foreign _ => []

def children : Expr → Except Fault (List Expr)
  | foreign kind => .error (.unknownNode kind)
  | e => .ok e.parts

mutual

/-- The number of nodes. -/
def size : Expr → Nat
  | lit _ => 1
  | ref _ subscripts => sizes subscripts + 1
  | unary _ operand => size operand + 1
  | binary _ left right => size left + size right + 1
  | call _ arguments => sizes arguments + 1
  | cond condition whenTrue whenFalse => size condition + size whenTrue + size whenFalse + 1
  | der operand => size operand + 1
  | pre operand => size operand + 1
  | foreign _ => 1
termination_by structural e => e

def sizes : List Expr → Nat
  | [] => 0
  | e :: rest => size e + sizes rest
termination_by structural es => es

end

theorem sizes_append (as bs : List Expr) : sizes (as ++ bs) = sizes as + sizes bs := by
  induction as with
  | nil => simp [sizes]
  | cons a as ih => simp [sizes, ih, Nat.add_assoc]

theorem sizes_parts_lt (e : Expr) : sizes e.parts < size e := by
  cases e with
  | cond => simp only [parts, size, sizes]; omega
  | _ => simp [parts, size, sizes]

theorem sizes_parts_append_lt (e : Expr) (rest : List Expr) :
    sizes (e.parts ++ rest) < sizes (e :: rest) := by
  rw [sizes_append, sizes]
  exact Nat.add_lt_add_right (sizes_parts_lt e) _

/-- The nodes of all pending expressions in pre-order. -/
def walkFrom : List Expr → Except Fault (List Expr)
  | [] => .ok []
  | e :: rest => do
    let _ ← e.children
    let later ← walkFrom (e.parts ++ rest)
    return e :: later
termination_by pending => sizes pending
decreasing_by exact sizes_parts_append_lt e rest

/-- Every node of the tree in pre-order. -/
def walk (e : Expr) : Except Fault (List Expr) := walkFrom [e]

/-- Some node satisfies `p`. The search stops at the first one, before any later foreign node. -/
def anyNodeFrom (p : Expr → Bool) : List Expr → Except Fault Bool
  | [] => .ok false
  | e :: rest =>
    if p e then .ok true
    else do
      let _ ← e.children
      anyNodeFrom p (e.parts ++ rest)
termination_by pending => sizes pending
decreasing_by exact sizes_parts_append_lt e rest

def anyNode (p : Expr → Bool) (e : Expr) : Except Fault Bool := anyNodeFrom p [e]

end Expr

/-- A reference to a variable, and whether it stands below a derivative or a left limit. -/
structure RefSite where
  name : String
  subscripts : List Expr
  inDer : Bool
  inPre : Bool

namespace RefSite

def text (site : RefSite) : String := (Expr.ref site.name site.subscripts).text

end RefSite

/-- An expression still to visit, with the operators above it. -/
structure Visit where
  expr : Expr
  inDer : Bool
  inPre : Bool

namespace Visit

/-- The visit of the direct subexpressions; `der` and `pre` mark what is below them. -/
def below (v : Visit) : List Visit :=
  match v.expr with
  | .der operand => [⟨operand, true, v.inPre⟩]
  | .pre operand => [⟨operand, v.inDer, true⟩]
  | e => e.parts.map fun part => ⟨part, v.inDer, v.inPre⟩

def site? (v : Visit) : Option RefSite :=
  match v.expr with
  | .ref name subscripts => some ⟨name, subscripts, v.inDer, v.inPre⟩
  | _ => none

theorem map_expr_below (v : Visit) : v.below.map (·.expr) = v.expr.parts := by
  obtain ⟨e, d, p⟩ := v
  cases e <;> simp [below, Expr.parts, Function.comp_def]

def sitesFrom : List Visit → Except Fault (List RefSite)
  | [] => .ok []
  | v :: rest => do
    let _ ← v.expr.children
    let later ← sitesFrom (v.below ++ rest)
    return v.site?.toList ++ later
termination_by pending => Expr.sizes (pending.map (·.expr))
decreasing_by
  simp only [List.map_append, map_expr_below, List.map_cons]
  exact Expr.sizes_parts_append_lt _ _

end Visit

/-- The references of an expression in pre-order, those inside subscripts included. -/
def Expr.refs (e : Expr) : Except Fault (List RefSite) := Visit.sitesFrom [⟨e, false, false⟩]

end Causality
