import PrefixLisp.Number
import PrefixLisp.Operator
import PrefixLisp.Position

/-
  Tokens: what a lexeme is (`Token.Kind`), its text as written, and where it begins.

  Kinds that have one spelling only (parentheses, operators, keywords) are listed in
  `Token.Kind.fixed`, and `Token.Kind.spelling?` gives that spelling; numbers, strings and
  symbols are known by their form.
-/

namespace PrefixLisp

/-- Words that open a special form and cannot be names. -/
inductive Keyword where
  | defun | setq | ifElse | print
deriving DecidableEq, Inhabited

def Keyword.spelling : Keyword → String
  | defun => "defun"
  | setq => "setq"
  | ifElse => "if"
  | print => "print"

inductive Token.Kind where
  | openParen
  | closeParen
  | number (n : Number)
  | symbol
  /-- A string literal; the lexeme keeps its quotes. -/
  | string
  | operator (op : Operator)
  | keyword (k : Keyword)
deriving DecidableEq, Inhabited

structure Token where
  kind : Token.Kind
  lexeme : String
  /-- The place of the first character. -/
  pos : Position
deriving DecidableEq, Inhabited

namespace Token.Kind

/-- The one spelling of a kind, for kinds that have just one. -/
def spelling? : Kind → Option String
  | openParen => some "("
  | closeParen => some ")"
  | operator op => some op.symbol
  | keyword k => some k.spelling
  | number _ | symbol | string => none

/-- The kinds that have just one spelling. -/
def fixed : List Kind :=
  [openParen, closeParen] ++ Operator.all.map operator ++
    [.defun, .setq, .ifElse, .print].map keyword

/-- The kind of that exact spelling. -/
def ofSpelling? (s : String) : Option Kind :=
  fixed.find? (·.spelling? = some s)

/-- The operator that a token stands for. -/
def operator? : Kind → Option Operator
  | operator op => some op
  | _ => none

theorem mem_fixed_iff {k : Kind} : k ∈ fixed ↔ ∃ s, k.spelling? = some s := by
  cases k with
  | operator op => simp [fixed, spelling?, Operator.mem_all]
  | keyword k => cases k <;> simp [fixed, spelling?, Operator.all]
  | _ => simp [fixed, spelling?, Operator.all]

end Token.Kind

end PrefixLisp
