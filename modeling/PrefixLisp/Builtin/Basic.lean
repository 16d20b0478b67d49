import PrefixLisp.Arity

/-
  The named operations on lists. They are called like functions, and a binding of the same
  name hides them.
-/

namespace PrefixLisp

inductive Builtin where
  | list | head | tail | append | splice | length | nth
deriving DecidableEq, Inhabited

namespace Builtin

def name : Builtin → String
  | list => "list"
  | head => "head"
  | tail => "tail"
  | append => "append"
  | splice => "splice"
  | length => "length"
  | nth => "nth"

def arity : Builtin → Arity
  | list => .any
  | head | tail | length => .exactly 1
  | append | nth => .exactly 2
  | splice => .exactly 3

/-- All of them, in the order in which they are listed to the user. -/
def all : List Builtin :=
  [list, head, tail, append, splice, length, nth]

theorem mem_all (b : Builtin) : b ∈ all := by
  cases b <;> decide

def find? (name : String) : Option Builtin :=
  all.find? (·.name = name)

end Builtin

end PrefixLisp
