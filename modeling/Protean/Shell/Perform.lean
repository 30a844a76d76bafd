import Protean.Completion
import Protean.Expr.Printer
import Protean.Shell.Command
import Protean.Shell.Interactive

/-!
# Shell — Perform

Carrying out commands.  Bad usage exits with 2, an error of the program with 1.
-/

namespace Protean.Shell

def usage : String :=
  "usage: protean [run SCRIPT | eval SOURCE | complete SCRIPT OFFSET | parse SCRIPT | repl]\n" ++
    "  run and eval take --max-steps N\n"

def versionText : String := "protean 0.1.0\n"

/-- The limits with another number of steps, if one is given. -/
def limitsOf (maxSteps : Option Nat) : Limits := { maxSteps := maxSteps.getD ({} : Limits).maxSteps }

def failure (ds : List Diagnostic) : Report where
  code := 1
  err := String.join (ds.map fun d => d.headline ++ "\n")

/-- Evaluates a text and prints the value. -/
def evaluateText (i : Interpreter) (maxSteps : Option Nat) (text : String) : Report :=
  match i.evalText (limitsOf maxSteps) text with
  | .ok (v, m) => { code := 0, out := m.heap.display v.value ++ "\n" }
  | .error e => failure e.report

/-- A candidate and its documentation on a line. -/
def candidateLine (c : Candidate) : String :=
  match c.documentation with
  | some docs => c.name ++ "\t" ++ docs ++ "\n"
  | none => c.name ++ "\n"

def completeText (i : Interpreter) (offset : Nat) (text : String) : Report :=
  match i.complete {} text offset with
  | some candidates => { code := 0, out := String.join (candidates.map candidateLine) }
  | none => { code := 0, err := "no completions at offset " ++ toString offset ++ "\n" }

/-- Prints each expression of a text on lines of its own. -/
def parseText (text : String) : Report :=
  match (Expr.parse .strict text).result with
  | .ok exprs => { code := 0, out := String.join (exprs.map fun e => e.print ++ "\n") }
  | .error ds => failure ds

/-- Carries out a command.  `readScript` gives the text of a file, if it can be read. -/
def perform (i : Interpreter) (readScript : String → Option String) (input : String) :
    Command → Report
  | .run script maxSteps =>
    match readScript script with
    | some text => evaluateText i maxSteps text
    | none => { code := 1 }
  | .eval source maxSteps => evaluateText i maxSteps source
  | .complete script offset =>
    match readScript script with
    | some text => completeText i offset text
    | none => { code := 1 }
  | .parse script =>
    match readScript script with
    | some text => parseText text
    | none => { code := 1 }
  | .repl => runLines i [] (inputLines input)
  | .help => { code := 0, out := usage }
  | .version => { code := 0, out := versionText }

/-- Reads and carries out a command line with the standard modules. -/
def execute (readScript : String → Option String) (input : String) (words : List String) : Report :=
  match Command.ofWords? words with
  | none => { code := 2, err := usage }
  | some command =>
    match Interpreter.standard with
    | .ok i => perform i readScript input command
    | .error e => failure [e.diagnostic]

end Protean.Shell
