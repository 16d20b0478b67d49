import PrefixLisp.Expr.Basic
import PrefixLisp.Expr.Error
import PrefixLisp.Token.Basic

/-
  Reading tokens as a program, one token at a time.

  The reader keeps the forms that are open around the current place, innermost first
  (`Reader.Frame`: what each has read so far), and what may come next (`Reader.Focus`). A token
  either takes it one step on or is reported as the one that cannot be continued; at the end of
  the tokens the focus says what is missing. An expression starts at a nesting depth equal to
  the number of frames around it, and the limit is tested before the token is looked at.
-/

namespace PrefixLisp

namespace Reader

/-- An open form that waits for an expression. Arguments are kept last first. -/
inductive Frame where
  | assign (name : String)
  | test
  | yes (test : Expr)
  | no (test yes : Expr)
  | print
  | body (name : String) (params : List String)
  | call (name : String) (args : List Expr)
  | prim (op : Operator) (args : List Expr)
deriving DecidableEq, Inhabited

/-- What comes next. Parameters are kept last first. -/
inductive Focus where
  /-- An expression, or the end of an argument list. -/
  | expression
  /-- What stands after an opening parenthesis. -/
  | form
  | variableName
  | functionName
  | parameterList (name : String)
  | parameters (name : String) (params : List String)
  /-- The closing parenthesis of a form that is complete. -/
  | close (form : Expr)
deriving DecidableEq, Inhabited

end Reader

structure Reader where
  focus : Reader.Focus
  frames : List Reader.Frame
  /-- The finished top-level expressions, last first. -/
  finished : List Expr
deriving DecidableEq, Inhabited

namespace Reader

def start : Reader :=
  ⟨.expression, [], []⟩

/-- Hand a complete expression to the innermost open form, or to the program. -/
def accept (e : Expr) (frames : List Frame) (finished : List Expr) : Reader :=
  match frames with
  | [] => ⟨.expression, [], e :: finished⟩
  | .assign name :: fs => ⟨.close (.assign name e), fs, finished⟩
  | .test :: fs => ⟨.expression, .yes e :: fs, finished⟩
  | .yes t :: fs => ⟨.expression, .no t e :: fs, finished⟩
  | .no t y :: fs => ⟨.close (.cond t y e), fs, finished⟩
  | .print :: fs => ⟨.close (.print e), fs, finished⟩
  | .body name params :: fs => ⟨.close (.defun name params e), fs, finished⟩
  | .call name args :: fs => ⟨.expression, .call name (e :: args) :: fs, finished⟩
  | .prim op args :: fs => ⟨.expression, .prim op (e :: args) :: fs, finished⟩

/-- A report about a token. -/
def report (kind : ParseError.Kind) (expected : ParseError.Expectation) (t : Token) :
    Except ParseError Reader :=
  .error ⟨kind, expected, some t.lexeme, t.pos⟩

/-- A token that stands where an expression has to start. -/
def beginExpression (limit : Nat) (r : Reader) (t : Token) : Except ParseError Reader :=
  if limit ≤ r.frames.length then report .tooDeeplyNested (.nestingAtMost limit) t
  else
    match t.kind with
    | .number n => .ok (accept (.number n) r.frames r.finished)
    | .string => .ok (accept (.ofStringLexeme t.lexeme) r.frames r.finished)
    | .symbol => .ok (accept (.symbol t.lexeme) r.frames r.finished)
    | .openParen => .ok { r with focus := .form }
    | _ => report .unexpectedToken .expression t

/-- The token after an opening parenthesis. -/
def beginForm (r : Reader) (t : Token) : Except ParseError Reader :=
  match t.kind with
  | .keyword .defun => .ok { r with focus := .functionName }
  | .keyword .setq => .ok { r with focus := .variableName }
  | .keyword .ifElse => .ok { r with focus := .expression, frames := .test :: r.frames }
  | .keyword .print => .ok { r with focus := .expression, frames := .print :: r.frames }
  | .symbol => .ok { r with focus := .expression, frames := .call t.lexeme [] :: r.frames }
  | .operator op => .ok { r with focus := .expression, frames := .prim op [] :: r.frames }
  | _ => report .unexpectedToken .formHead t

/-- Take one token. -/
def step (limit : Nat) (r : Reader) (t : Token) : Except ParseError Reader :=
  match r.focus with
  | .expression =>
    match r.frames, t.kind with
    | .call name args :: fs, .closeParen => .ok (accept (.call name args.reverse) fs r.finished)
    | .prim _ [] :: _, .closeParen => report .unexpectedToken .operand t
    | .prim op args :: fs, .closeParen => .ok (accept (.prim op args.reverse) fs r.finished)
    | _, _ => beginExpression limit r t
  | .form => beginForm r t
  | .variableName =>
    if t.kind = .symbol then
      .ok { r with focus := .expression, frames := .assign t.lexeme :: r.frames }
    else report .unexpectedToken .variableName t
  | .functionName =>
    if t.kind = .symbol then .ok { r with focus := .parameterList t.lexeme }
    else report .unexpectedToken .functionName t
  | .parameterList name =>
    if t.kind = .openParen then .ok { r with focus := .parameters name [] }
    else report .unexpectedToken .parameterList t
  | .parameters name params =>
    if t.kind = .closeParen then
      .ok { r with focus := .expression, frames := .body name params.reverse :: r.frames }
    else if t.kind = .symbol then
      if t.lexeme ∈ params then report .duplicateParameter .distinctParameters t
      else .ok { r with focus := .parameters name (t.lexeme :: params) }
    else report .unexpectedToken .parameterOrClose t
  | .close form =>
    if t.kind = .closeParen then .ok (accept form r.frames r.finished)
    else report .unexpectedToken .close t

/-- Take tokens up to the first that cannot be continued. -/
def run (limit : Nat) (r : Reader) (ts : List Token) : Except ParseError Reader :=
  ts.foldlM (step limit) r

/-- What is missing at the end of the tokens; `none` when a program is complete. -/
def missing? (limit : Nat) (r : Reader) : Option ParseError.Expectation :=
  match r.focus with
  | .expression =>
    match r.frames with
    | [] => if r.finished = [] then some .expression else none
    | .call _ _ :: _ | .prim _ _ :: _ => some .close
    | fs => some (if limit ≤ fs.length then .nestingAtMost limit else .expression)
  | .form => some .form
  | .variableName => some .variableName
  | .functionName => some .functionName
  | .parameterList _ => some .parameterList
  | .parameters _ _ => some .parameterOrClose
  | .close _ => some .close

end Reader

/-- The place just behind the last token, counting the characters of its lexeme on its line. -/
def Token.endPosition (ts : List Token) : Position :=
  match ts.getLast? with
  | some t => ⟨t.pos.line, t.pos.column + t.lexeme.length⟩
  | none => .start

/-- Read tokens as a program whose expressions nest at most `limit` deep. -/
def Program.ofTokens (limit : Nat) (ts : List Token) : Except ParseError Program := do
  let r ← Reader.start.run limit ts
  match r.missing? limit with
  | none => return r.finished.reverse
  | some expected => throw ⟨.unexpectedEnd, expected, none, Token.endPosition ts⟩

end PrefixLisp
