import Protean.Interpreter
import Protean.Shell.Line
import Protean.Text.Blank

/-!
# Shell — Interactive

The shell that reads line by line.  Every run starts afresh, so the lines that had a value are run
again in front of each new line.

* `react` is what one line does.
* `runLines` is what a whole input does.
-/

namespace Protean.Shell

/-- What a command leaves: the exit code and the two outputs. -/
structure Report where
  code : Nat
  out : String := ""
  err : String := ""

/-- What a line leaves: the lines accepted so far, newest first, and what the line wrote on the two
outputs. -/
structure Reaction where
  accepted : List String := []
  out : String := ""
  err : String := ""

/-- The accepted lines and a new one as one program. -/
def programWith (accepted : List String) (line : String) : String :=
  "\n".intercalate (accepted.reverse ++ [line])

/-- Runs a line behind all accepted ones; it is accepted if it has a value. -/
def submit (i : Interpreter) (accepted : List String) (line : String) : Reaction :=
  match i.evalText {} (programWith accepted line) with
  | .ok (v, m) => { accepted := line :: accepted, out := m.heap.display v.value ++ "\n" }
  | .error (.diagnostics ds) =>
    { accepted := accepted, err := String.join (ds.map fun d => d.headline ++ "\n") }
  | .error e => { accepted := accepted, err := "error: " ++ e.render ++ "\n" }

/-- What the shell does after a line. -/
inductive Turn where
  /-- It goes on. -/
  | goOn (reaction : Reaction)
  /-- It ends with an exit code. -/
  | leave (code : Nat)

/-- The exit code for a broken line. -/
def brokenLine : Nat := 101

/-- Takes in a line. -/
def react (i : Interpreter) (accepted : List String) (line : String) : Turn :=
  match Line.read? line with
  | none => .leave brokenLine
  | some line =>
    match Text.trim line with
    | ":quit" | ":exit" => .leave 0
    | ":reset" => .goOn {}
    | "" => .goOn { accepted := accepted }
    | line => .goOn (submit i accepted line)

/-- Takes in lines until one of them ends the shell; yields what all of them wrote. -/
def runLines (i : Interpreter) : List String → List String → Report
  | _, [] => { code := 0 }
  | accepted, line :: rest =>
    match react i accepted line with
    | .leave code => { code := code }
    | .goOn r =>
      let later := runLines i r.accepted rest
      { later with out := r.out ++ later.out, err := r.err ++ later.err }

/-- The lines of an input; a newline at its end starts no further line. -/
def inputLines (input : String) : List String :=
  let lines := input.splitOn "\n"
  if lines.getLast? = some "" then lines.dropLast else lines

end Protean.Shell
