import PrefixLisp.Expr.Error
import PrefixLisp.Token.Error
import PrefixLisp.Value.Error

/-
  All that can go wrong with a source text: in its characters, in its structure, or when it
  runs.
-/

namespace PrefixLisp

inductive Error where
  | lex (e : LexError)
  | parse (e : ParseError)
  | eval (e : EvalError)
deriving DecidableEq, Inhabited

def Error.message : Error → String
  | lex e => "LexError: " ++ e.message
  | parse e => "ParseError: " ++ e.message
  | eval e => e.message

end PrefixLisp
