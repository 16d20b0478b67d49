import PrefixLisp.Position

/-
  Reports about a token that cannot be continued: what was expected there, and what was found.
-/

namespace PrefixLisp

namespace ParseError

inductive Kind where
  | unexpectedToken
  | unexpectedEnd
  | duplicateParameter
  | tooDeeplyNested
deriving DecidableEq, Inhabited

/-- What the reader was waiting for. -/
inductive Expectation where
  | expression
  /-- The inside of a form, at the end of the text. -/
  | form
  /-- The word or operator that says which form it is. -/
  | formHead
  | variableName
  | functionName
  | parameterList
  | parameterOrClose
  | distinctParameters
  | operand
  | close
  | nestingAtMost (limit : Nat)
  /-- Wording that a host program brings. -/
  | worded (text : String)
deriving DecidableEq, Inhabited

def Expectation.text : Expectation → String
  | expression => "expression"
  | form => "form"
  | formHead => "'defun', 'setq', 'if', 'print', an operator or a function name"
  | variableName => "variable name"
  | functionName => "function name"
  | parameterList => "'(' starting the parameter list"
  | parameterOrClose => "parameter name or ')'"
  | distinctParameters => "distinct parameter names"
  | operand => "operand"
  | close => "')'"
  | nestingAtMost limit => s!"at most {limit} levels of nesting"
  | worded text => text

end ParseError

structure ParseError where
  kind : ParseError.Kind
  expected : ParseError.Expectation
  /-- The lexeme that stands there; `none` at the end of the text. -/
  found : Option String
  pos : Position
deriving DecidableEq, Inhabited

def ParseError.message (e : ParseError) : String :=
  let found := e.found.getD "end of input"
  s!"line {e.pos.line}:{e.pos.column}: expected {e.expected.text}, found {found}"

end PrefixLisp
