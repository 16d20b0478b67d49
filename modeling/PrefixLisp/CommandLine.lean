import PrefixLisp.Console
import PrefixLisp.Text.Lines

/-
  The command line: `[FILE] [--max-depth N] [--max-nesting N] [--lenient] [-v]… [-V]`.

  Words are taken from left to right, and the first that asks for the version or that cannot
  be accepted decides. `-v` asks for log lines, of which this program has none. With a file the
  program in it is run; without one the console talks over the standard input.
-/

namespace PrefixLisp.CommandLine

structure Options where
  file : Option String := none
  depthLimit : Option Nat := none
  nestingLimit : Option Nat := none
  lenient : Bool := false
deriving DecidableEq, Inhabited

/-- What a command line asks for. -/
inductive Request where
  | version
  | help
  /-- Run the program in a file. -/
  | file (config : Config) (path : String)
  /-- Talk over the standard input. -/
  | console (config : Config)
deriving DecidableEq, Inhabited

/-- The configuration that the options ask for; what they leave open keeps its default. -/
def Options.config (o : Options) : Config :=
  let default : Config := {}
  { nestingLimit := o.nestingLimit.getD default.nestingLimit
    depthLimit := o.depthLimit.getD default.depthLimit
    strict := !o.lenient }

def Options.request (o : Options) : Request :=
  match o.file with
  | some path => .file o.config path
  | none => .console o.config

/-- An unsigned 64-bit number: decimal digits, with a plus sign if one likes. -/
def count? (word : String) : Option Nat :=
  let digits := match word.toList with
    | '+' :: cs => cs
    | cs => cs
  let n := Nat.ofDigitChars 10 digits 0
  if digits ≠ [] ∧ digits.all Char.isDigit ∧ n < 18446744073709551616 then some n else none

/-- A word that names the file: there is one at most, and its name is not empty. -/
def Options.withFile? (o : Options) (word : String) : Option Options :=
  if word = "" ∨ o.file.isSome then none else some { o with file := some word }

def Options.withDepthLimit? (o : Options) (value : String) : Option Options := do
  guard o.depthLimit.isNone
  return { o with depthLimit := some (← count? value) }

def Options.withNestingLimit? (o : Options) (value : String) : Option Options := do
  guard o.nestingLimit.isNone
  return { o with nestingLimit := some (← count? value) }

def Options.withLenient? (o : Options) : Option Options :=
  if o.lenient then none else some { o with lenient := true }

/-- How the words go on after one of them; `none` if it cannot be accepted. -/
inductive Step where
  | done (request : Request)
  | next (options : Options)

/-- The letters behind a single dash. -/
def letters (o : Options) : List Char → Option Step
  | [] => some (.next o)
  | 'v' :: cs => letters o cs
  | 'V' :: _ => some (.done .version)
  | 'h' :: _ => some (.done .help)
  | _ => none

/-- A word behind two dashes that takes no value. -/
def flag (o : Options) : String → Option Step
  | "verbose" => some (.next o)
  | "version" => some (.done .version)
  | "help" => some (.done .help)
  | "lenient" => o.withLenient?.map .next
  | _ => none

/-- A word behind two dashes that takes a value. -/
def setting? : String → Option (Options → String → Option Options)
  | "max-depth" => some Options.withDepthLimit?
  | "max-nesting" => some Options.withNestingLimit?
  | _ => none

/-- Words that all name files. -/
def files (o : Options) : List String → Option Request
  | [] => some o.request
  | word :: words => do files (← o.withFile? word) words

/-- Read the words of a command line; `none` if they are not acceptable. -/
def parse (o : Options) : List String → Option Request
  | [] => some o.request
  | word :: words =>
    match word.toList with
    | ['-', '-'] => files o words
    | '-' :: '-' :: cs =>
      let name := String.ofList (cs.takeWhile (· ≠ '='))
      match setting? name, cs.dropWhile (· ≠ '='), words with
      | some set, [], value :: words => do parse (← set o value) words
      | some _, [], [] => none
      | some set, _ :: value, words => do parse (← set o (.ofList value)) words
      | none, [], words => do
        match ← flag o name with
        | .done request => return request
        | .next o => parse o words
      | none, _ :: _, _ => none
    | '-' :: c :: cs => do
      match ← letters o (c :: cs) with
      | .done request => return request
      | .next o => parse o words
    | _ => do parse (← o.withFile? word) words

/-- Why a file cannot be read. -/
inductive ReadFailure where
  | missing
  | directory
  | notText
  | system (reason : String)
deriving DecidableEq, Inhabited

def ReadFailure.text : ReadFailure → String
  | missing => "No such file or directory (os error 2)"
  | directory => "Is a directory (os error 21)"
  | notText => "stream did not contain valid UTF-8"
  | system reason => reason

/-- What a run of the program leaves behind. -/
structure Outcome where
  exitCode : UInt32
  stdout : String
  stderr : String
deriving Inhabited

def usageText : String :=
  "Usage: minilisp [FILE] [--max-depth N] [--max-nesting N] [--lenient] [-v]... [-V]\n"

/-- The answer to words that are not acceptable. -/
def wrongUsage : Outcome := ⟨2, "", "error: unexpected arguments\n\n" ++ usageText⟩

def version : Outcome := ⟨0, "minilisp 0.1.0\n", ""⟩

def help : Outcome := ⟨0, usageText, ""⟩

/-- Run the program in a file whose bytes were read. -/
def runFile (config : Config) (path : String) (bytes : Except ReadFailure ByteArray) : Outcome :=
  let source := bytes.bind fun bytes =>
    match String.fromUTF8? bytes with
    | some source => .ok source
    | none => .error .notText
  match source with
  | .error e => ⟨1, "", s!"Error: cannot read {path}: {e.text}\n"⟩
  | .ok source =>
    match (Session.new config).eval source .unbounded with
    | (.ok _, _, out) => ⟨0, out.text, ""⟩
    | (.error e, _, out) => ⟨1, out.text, Console.errorLine e⟩

/-- Talk over the lines of the standard input. -/
def runConsole (config : Config) (stdin : String) : Outcome :=
  ⟨0, Console.banner ++ Console.dialogue (.new config) (Text.lines stdin), ""⟩

/-- The whole program: arguments, files and standard input to what is written. -/
def run (args : List String) (read : String → Except ReadFailure ByteArray) (stdin : String) :
    Outcome :=
  match parse {} args with
  | none => wrongUsage
  | some .version => version
  | some .help => help
  | some (.file config path) => runFile config path (read path)
  | some (.console config) => runConsole config stdin

end PrefixLisp.CommandLine
