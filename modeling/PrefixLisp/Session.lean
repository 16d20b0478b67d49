import PrefixLisp.Error
import PrefixLisp.Eval
import PrefixLisp.Expr.Reader
import PrefixLisp.Token.Lexer

/-
  Sessions: a configuration and the global names, which outlive each source text that is run.
  A source that fails keeps every binding that it made before the failing expression.
-/

namespace PrefixLisp

structure Config where
  /-- How deep expressions may nest in a source text. -/
  nestingLimit : Nat := 256
  /-- How deep evaluation may go. -/
  depthLimit : Nat := 128
  /-- Whether the first lex error refuses the text; otherwise lex errors are passed over. -/
  strict : Bool := true
deriving DecidableEq, Inhabited

/-- Read a source text as a program. -/
def Program.ofSource (config : Config) (source : String) : Except Error Program :=
  let (tokens, errors) := tokenize source
  match config.strict, errors with
  | true, e :: _ => .error (.lex e)
  | _, _ => (Program.ofTokens config.nestingLimit tokens).mapError .parse

structure Session where
  config : Config
  globals : Scope
deriving Inhabited

namespace Session

/-- A fresh session. -/
def new (config : Config := {}) : Session :=
  ⟨config, .global⟩

def parse (s : Session) (source : String) : Except Error Program :=
  Program.ofSource s.config source

/-- Read and run a source text: its outcome, the session behind it, and the output. -/
def eval (s : Session) (source : String) (out : Output) : Except Error Value × Session × Output :=
  match s.parse source with
  | .error e => (.error e, s, out)
  | .ok program =>
    match program.eval s.config.depthLimit ⟨s.globals, out⟩ with
    | .ok v m => (.ok v, { s with globals := m.scope }, m.out)
    | .error e m => (.error (.eval e), { s with globals := m.scope }, m.out)

end Session

end PrefixLisp
