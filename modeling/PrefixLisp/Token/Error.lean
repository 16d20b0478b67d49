import PrefixLisp.Position

/-
  What the lexer reports about input that it passes over.
-/

namespace PrefixLisp

inductive LexError.Cause where
  /-- No lexeme begins with this character. -/
  | illegalCharacter (c : Char)
  /-- A number literal outside the 64-bit range. -/
  | numberOutOfRange (literal : String)
deriving DecidableEq, Inhabited

structure LexError where
  cause : LexError.Cause
  pos : Position
deriving DecidableEq, Inhabited

namespace LexError

/-- The text that was passed over. -/
def Cause.text : Cause → String
  | illegalCharacter c => c.toString
  | numberOutOfRange literal => literal

def Cause.message : Cause → String
  | illegalCharacter c => s!"illegal character '{c}'"
  | numberOutOfRange literal => s!"number literal {literal} does not fit in 64 bits"

def message (e : LexError) : String :=
  s!"{e.cause.message} at line {e.pos.line}, column {e.pos.column}"

end LexError

end PrefixLisp
