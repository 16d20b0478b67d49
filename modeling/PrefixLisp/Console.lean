import PrefixLisp.Expr.Render
import PrefixLisp.Session
import PrefixLisp.Text.Blank

/-
  The console: a session that is driven line by line. Each line, without the blanks around it,
  is a command or source text; the answer goes to the same output as what programs print.

  `Console.dialogue` is everything that a sequence of lines brings about. The prompt stands
  before every line, and also where there are no more lines.
-/

namespace PrefixLisp.Console

inductive Command where
  /-- An empty line. -/
  | nothing
  | help
  /-- Show what is bound. -/
  | environment
  | quit
  /-- Show how a source text reads. -/
  | parse (source : String)
  | run (source : String)
deriving DecidableEq, Inhabited

def parseCommand : String := ":parse "

def Command.ofLine (line : String) : Command :=
  let text := Text.trim line
  if text = "" then .nothing
  else if text = ":help" then .help
  else if text = ":env" then .environment
  else if text ∈ [":quit", ":exit", "(quit)"] then .quit
  else if parseCommand.toList.isPrefixOf text.toList then
    .parse (.ofList (text.toList.drop parseCommand.length))
  else .run text

def banner : String :=
  "Lisp!\nType :help for commands, (quit) or Ctrl+D to exit.\n\n"

def prompt : String := "> "

def farewell : String := "See ya!\n"

/-- A name filled up with spaces to a column of eight. -/
def column (name : String) : String :=
  name ++ .ofList (List.replicate (8 - name.length) ' ')

def helpText : String :=
  String.join [
    "Commands:\n",
    "  :help          - Show this help message\n",
    "  :env           - Show current environment bindings\n",
    "  :parse <expr>  - Show how an expression parses\n",
    "  :quit, (quit)  - Exit the interpreter\n",
    "\n",
    "Forms:\n",
    "  (setq x 5)                  bind a variable\n",
    "  (defun add (a b) (+ a b))   define a function\n",
    "  (if c then else)            0 is false, anything else true\n",
    "  (print expr)                print and return a value\n",
    "\n",
    "Primitives:\n",
    "  Arithmetic: + - * /\n",
    "  Comparison: > < >= <= == !=\n",
    "\n",
    "Builtins:\n",
    String.join (Builtin.all.map fun b => s!"  {column b.name} takes {b.arity.render}\n"),
    "\n"]

/-- A heading with the number of lines under it; nothing at all if there are none. -/
def listing (title : String) (lines : List String) : String :=
  if lines.isEmpty then "" else s!"{title} ({lines.length}):\n" ++ String.join lines

/-- The global bindings by name, the functions before the variables. -/
def environmentText (scope : Scope) : String :=
  let bound := scope.visible.entries
  let callable := bound.filterMap fun (name, v) =>
    match v with
    | .function _ d => some ("  " ++ name ++ " (" ++ " ".intercalate d.params ++ ")\n")
    | _ => none
  let plain := bound.filterMap fun (name, v) =>
    match v with
    | .function _ _ => none
    | _ => some ("  " ++ name ++ " = " ++ v.render ++ "\n")
  listing "Functions" callable ++ listing "Variables" plain

def errorLine (e : Error) : String :=
  "Error: " ++ e.message ++ "\n"

/-- What a command shows, and the session behind it. -/
def Command.reply (s : Session) : Command → String × Session
  | nothing | quit => ("", s)
  | help => (helpText, s)
  | environment => (environmentText s.globals, s)
  | parse source =>
    match s.parse source with
    | .ok program => (program.render ++ "\n", s)
    | .error e => (errorLine e, s)
  | run source =>
    match s.eval source .unbounded with
    | (.ok v, s, out) => (out.text ++ v.render ++ "\n", s)
    | (.error e, s, out) => (out.text ++ errorLine e, s)

/-- The commands in a sequence of lines, each with what it shows, up to a quit command or the
last line; and the session behind them. -/
def exchange (s : Session) : List String → List (Command × String) × Session
  | [] => ([], s)
  | line :: lines =>
    match Command.ofLine line with
    | .quit => ([], s)
    | command =>
      let (text, s) := command.reply s
      let (more, s) := exchange s lines
      ((command, text) :: more, s)

/-- All that is shown for a sequence of lines. -/
def dialogue (s : Session) (lines : List String) : String :=
  String.join ((exchange s lines).1.map fun (_, text) => prompt ++ text) ++ prompt ++ farewell

end PrefixLisp.Console
