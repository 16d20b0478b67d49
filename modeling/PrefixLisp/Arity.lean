/-
  How many arguments a callee takes.
-/

namespace PrefixLisp

inductive Arity where
  | exactly (n : Nat)
  | atLeast (n : Nat)
  | any
deriving DecidableEq, Inhabited

namespace Arity

def accepts : Arity → Nat → Bool
  | exactly n, count => count = n
  | atLeast n, count => n ≤ count
  | any, _ => true

def render : Arity → String
  | exactly n => s!"exactly {n}"
  | atLeast n => s!"at least {n}"
  | any => "any number"

end Arity

end PrefixLisp
