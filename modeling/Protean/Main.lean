import Protean.Shell.Perform

/-!
# Main

The program: words from the command line, scripts from files, lines from standard input.
-/

namespace Protean.Shell

/-- Prints what a command leaves and yields its exit code. -/
def finish (report : Report) : IO UInt32 := do
  IO.print report.out
  IO.eprint report.err
  return UInt32.ofNat report.code

/-- Answers line by line until the input ends or a line ends the shell; yields the exit code. -/
partial def interact (i : Interpreter) (accepted : List String) : IO UInt32 := do
  let line ← (← IO.getStdin).getLine
  if line.isEmpty then return 0
  match react i accepted (String.ofList (line.toList.filter (· != '\n'))) with
  | .leave code => return UInt32.ofNat code
  | .goOn r =>
    IO.print r.out
    IO.eprint r.err
    (← IO.getStdout).flush
    interact i r.accepted

end Protean.Shell

open Protean Protean.Shell

/-- Reads what the command needs and carries it out. -/
def main (words : List String) : IO UInt32 := do
  match Command.ofWords? words, Interpreter.standard with
  | some .repl, .ok i => interact i []
  | command, _ =>
    let script ←
      match command.bind Command.script? with
      | some path => (some <$> IO.FS.readFile path) <|> pure none
      | none => pure none
    finish (execute (fun _ => script) "" words)
