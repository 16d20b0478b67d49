/-
  The operators that have a spelling of their own: four for arithmetic, six for comparison.
-/

namespace PrefixLisp

inductive Operator where
  | add | sub | mul | div
  | gt | lt | ge | le | eq | ne
deriving DecidableEq, Inhabited

namespace Operator

def symbol : Operator → String
  | add => "+"
  | sub => "-"
  | mul => "*"
  | div => "/"
  | gt => ">"
  | lt => "<"
  | ge => ">="
  | le => "<="
  | eq => "=="
  | ne => "!="

/-- Arithmetic folds its operands; the other operators compare exactly two. -/
def isArithmetic : Operator → Bool
  | add | sub | mul | div => true
  | _ => false

def all : List Operator :=
  [add, sub, mul, div, gt, lt, ge, le, eq, ne]

theorem mem_all (op : Operator) : op ∈ all := by
  cases op <;> decide

/-- The operator of that exact spelling. -/
def ofSymbol? (s : String) : Option Operator :=
  all.find? (·.symbol = s)

end Operator

end PrefixLisp
