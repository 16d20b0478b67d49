import PrefixLisp.Expr.Basic

/-
  The canonical text of expressions and programs: one space between parts, nothing else
  between parentheses, and a newline between top-level expressions. The text of a string
  stands between quotes as it is.
-/

namespace PrefixLisp

namespace Expr

mutual

def render : Expr → String
  | number n => n.render
  | string s => "\"" ++ s ++ "\""
  | symbol name => name
  | assign name value => "(setq " ++ name ++ " " ++ value.render ++ ")"
  | cond test yes no => "(if " ++ test.render ++ " " ++ yes.render ++ " " ++ no.render ++ ")"
  | print value => "(print " ++ value.render ++ ")"
  | defun name params body =>
    "(defun " ++ name ++ " (" ++ " ".intercalate params ++ ") " ++ body.render ++ ")"
  | call name args => "(" ++ name ++ renderArgs args ++ ")"
  | prim op args => "(" ++ op.symbol ++ renderArgs args ++ ")"

/-- Each argument after a space. -/
def renderArgs : List Expr → String
  | [] => ""
  | e :: es => " " ++ e.render ++ renderArgs es

end

end Expr

def Program.render (p : Program) : String :=
  "\n".intercalate (p.map Expr.render)

end PrefixLisp
