import Causality.Fault

/-!
# Substitution

Unsubscripted references are replaced by expressions; in a subscripted reference only the
subscripts are gone into. On demand the argument of a reduction is left whole, so that `max(x)`
still runs over every element of `x`.
-/

namespace Causality

/-- What each name stands for. -/
abbrev Substitution := String → Option Expr

namespace Substitution

def none : Substitution := fun _ => Option.none

/-- A later binding of a name hides an earlier one. -/
def bind (σ : Substitution) (name : String) (e : Expr) : Substitution :=
  fun n => if n = name then some e else σ n

def ofList (bindings : List (String × Expr)) : Substitution :=
  bindings.foldl (fun σ (name, e) => σ.bind name e) none

end Substitution

namespace Expr

mutual

def substitute (σ : Substitution) (keepReductions : Bool) : Expr → Except Fault Expr
  | lit value => .ok (lit value)
  | ref name [] => .ok ((σ name).getD (ref name []))
  | ref name (s :: rest) => do
    let first ← substitute σ keepReductions s
    let others ← substituteAll σ keepReductions rest
    return ref name (first :: others)
  | unary op operand => do
    return unary op (← substitute σ keepReductions operand)
  | binary op left right => do
    let l ← substitute σ keepReductions left
    let r ← substitute σ keepReductions right
    return binary op l r
  | call function arguments =>
    if keepReductions ∧ isReduction (call function arguments) then
      .ok (call function arguments)
    else do
      return call function (← substituteAll σ keepReductions arguments)
  | cond condition whenTrue whenFalse => do
    let c ← substitute σ keepReductions condition
    let t ← substitute σ keepReductions whenTrue
    let f ← substitute σ keepReductions whenFalse
    return cond c t f
  | der operand => do return der (← substitute σ keepReductions operand)
  | pre operand => do return pre (← substitute σ keepReductions operand)
  | foreign kind => .error (.unknownNode kind)
termination_by structural e => e

def substituteAll (σ : Substitution) (keepReductions : Bool) :
    List Expr → Except Fault (List Expr)
  | [] => .ok []
  | e :: rest => do
    let first ← substitute σ keepReductions e
    let others ← substituteAll σ keepReductions rest
    return first :: others
termination_by structural es => es

end

end Expr

end Causality
