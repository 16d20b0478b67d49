import PrefixLisp.Builtin.Basic
import PrefixLisp.Value.Basic

/-
  Why an evaluation fails. The causes are data; `EvalError.message` words them.
-/

namespace PrefixLisp

namespace EvalError

/-- Values of a kind that an operation does not take. -/
inductive Mismatch where
  | notFunction (name : String) (found : Value.Kind)
  | notNumber (op : Operator) (found : Value.Kind)
  | notNumbers (op : Operator) (left right : Value.Kind)
  | incomparable (left right : Value.Kind)
  | notList (operation : Builtin) (found : Value.Kind)
  | notIndex (operation : Builtin) (found : Value.Kind)
  /-- Wording that a host program brings. -/
  | worded (text : String)
deriving DecidableEq, Inhabited

/-- Failures that depend on more than the kinds of the values. -/
inductive Failure where
  | divisionByZero
  | overflow (left : Number) (op : Operator) (right : Number)
  | notArithmetic (op : Operator)
  | notComparison (op : Operator)
  | headOfEmpty
  | indexOutOfBounds (index : Number) (length : Nat)
  | listTooLong
  | depthExceeded (limit : Nat)
  | outputFull
  | emptyProgram
  /-- Wording that a host program brings. -/
  | worded (text : String)
deriving DecidableEq, Inhabited

def Mismatch.text : Mismatch → String
  | notFunction name found => s!"\"{name}\" is a {found.name}, not a function"
  | notNumber op found => s!"'{op.symbol}' expects numbers, got {found.name}"
  | notNumbers op left right => s!"'{op.symbol}' expects numbers, got {left.name} and {right.name}"
  | incomparable left right => s!"cannot compare {left.name} with {right.name}"
  | notList operation found => s!"{operation.name} expects a list, got {found.name}"
  | notIndex operation found => s!"{operation.name} expects a number index, got {found.name}"
  | worded text => text

def Failure.text : Failure → String
  | divisionByZero => "division by zero"
  | overflow left op right => s!"integer overflow in {left.render} {op.symbol} {right.render}"
  | notArithmetic op => s!"'{op.symbol}' is not an arithmetic operator"
  | notComparison op => s!"'{op.symbol}' is not a comparison"
  | headOfEmpty => "head of empty list"
  | indexOutOfBounds index length =>
    s!"index {index.render} out of bounds for list of length {length}"
  | listTooLong => "list too long"
  | depthExceeded limit => s!"Evaluation depth limit exceeded (max: {limit})"
  | outputFull => "failed to write output: sink full"
  | emptyProgram => "cannot evaluate an empty program"
  | worded text => text

end EvalError

inductive EvalError where
  /-- A name that is neither bound nor a builtin. -/
  | unbound (name : String)
  | arity (callee : String) (expected : Arity) (given : Nat)
  | mismatch (m : EvalError.Mismatch)
  | failure (f : EvalError.Failure)
deriving DecidableEq, Inhabited

def EvalError.message : EvalError → String
  | unbound name => s!"SymbolNotFound: symbol \"{name}\" not found"
  | arity callee expected given =>
    s!"IncorrectNumOfArgs: \"{callee}\" was given {given} arguments, "
      ++ s!"when it takes {expected.render}"
  | mismatch m => "TypeMismatch: " ++ m.text
  | failure f => "EvaluationError: " ++ f.text

/-- Refuse a call with a number of arguments that the callee does not take. -/
def Arity.check (expected : Arity) (callee : String) (given : Nat) : Except EvalError Unit :=
  if expected.accepts given then .ok () else .error (.arity callee expected given)

end PrefixLisp
