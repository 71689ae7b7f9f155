import Causality.Expr.Basic

/-!
# Equality of expressions

Two expressions are the same if they have the same shape, operators and names, and their literals
have equal values: `1`, `1.0` and the truth value true are one literal here, and NaN is none.
-/

namespace Causality.Expr

mutual

def same : Expr → Expr → Bool
  | lit a, lit b => a.same b
  | ref m ss, ref n ts => m == n && sameAll ss ts
  | unary p a, unary q b => p == q && same a b
  | binary p a b, binary q c d => p == q && same a c && same b d
  | call f as, call g bs => f == g && sameAll as bs
  | cond a b c, cond d e f => same a d && same b e && same c f
  | der a, der b => same a b
  | pre a, pre b => same a b
  | foreign j, foreign k => j == k
  | _, _ => false
termination_by structural e => e

def sameAll : List Expr → List Expr → Bool
  | [], [] => true
  | a :: as, b :: bs => same a b && sameAll as bs
  | _, _ => false
termination_by structural es => es

end

end Causality.Expr
