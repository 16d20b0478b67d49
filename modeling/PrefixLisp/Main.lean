import PrefixLisp.CommandLine

/-
  The program as a process: arguments, files and the standard streams. What is written and how
  the process ends is decided by `CommandLine` and `Console`; here a console line is answered
  as soon as it is read.
-/

namespace PrefixLisp.Main

/-- The bytes of a file, or why there are none. -/
def readFile (path : String) : IO (Except CommandLine.ReadFailure ByteArray) := do
  try
    return .ok (← IO.FS.readBinFile path)
  catch
    | .noFileOrDirectory .. => return .error .missing
    | .inappropriateType .. => return .error .directory
    | e => return .error (.system (toString e))

/-- Answer console lines until one of them quits or there are no more. -/
partial def converse (input output : IO.FS.Stream) (s : Session) : IO Unit := do
  output.putStr Console.prompt
  output.flush
  let line ← input.getLine
  if line.isEmpty then output.putStr Console.farewell
  else
    match Console.Command.ofLine line with
    | .quit => output.putStr Console.farewell
    | command =>
      let (text, s) := command.reply s
      output.putStr text
      converse input output s

/-- Write what a run leaves behind. -/
def leave (outcome : CommandLine.Outcome) : IO UInt32 := do
  let output ← IO.getStdout
  output.putStr outcome.stdout
  output.flush
  (← IO.getStderr).putStr outcome.stderr
  return outcome.exitCode

end PrefixLisp.Main

open PrefixLisp in
def main (args : List String) : IO UInt32 := do
  match CommandLine.parse {} args with
  | none => Main.leave CommandLine.wrongUsage
  | some .version => Main.leave CommandLine.version
  | some .help => Main.leave CommandLine.help
  | some (.file config path) =>
    Main.leave (CommandLine.runFile config path (← Main.readFile path))
  | some (.console config) =>
    let output ← IO.getStdout
    output.putStr Console.banner
    Main.converse (← IO.getStdin) output (.new config)
    output.flush
    return 0
