import Protean.Number.Text

/-!
# Shell — Command

The words of a command line, read as a command.  A subcommand has slots for its positional words, each
word is checked when it fills its slot, and the first fault decides: a call for help counts only if
nothing before it is wrong.
-/

namespace Protean.Shell

inductive Command where
  | run (script : String) (maxSteps : Option Nat)
  | eval (source : String) (maxSteps : Option Nat)
  | complete (script : String) (offset : Nat)
  | parse (script : String)
  | repl
  | help
  | version
deriving DecidableEq

/-! ### Single words -/

/-- A number of 64 bits: digits, with or without a plus sign. -/
def readNumber? (word : String) : Option Nat :=
  match word.toList with
  | '+' :: digits => Number.readIndex? (String.ofList digits)
  | _ => Number.readIndex? word

/-- What a positional word stands for. -/
inductive Slot where
  /-- The name of a file, which is never empty. -/
  | script
  | source
  | offset
deriving DecidableEq

def Slot.accepts (slot : Slot) (word : String) : Bool :=
  match slot with
  | .script => !word.isEmpty
  | .source => true
  | .offset => (readNumber? word).isSome

/-- A word that starts with a dash and is more than a dash. -/
def isOption (word : String) : Bool :=
  match word.toList with
  | '-' :: _ :: _ => true
  | _ => false

/-- The option of one letter, alone or in front of others. -/
def isShort (letter : Char) (word : String) : Bool := ['-', letter].isPrefixOf word.toList

def isHelp (word : String) : Bool := word == "--help" || isShort 'h' word

def isVersion (word : String) : Bool := word == "--version" || isShort 'V' word

/-- The value behind `--max-steps=`. -/
def attachedSteps? (word : String) : Option String :=
  let flag := "--max-steps=".toList
  if flag.isPrefixOf word.toList then some (String.ofList (word.toList.drop flag.length)) else none

/-! ### The words of a subcommand -/

/-- What was read of a subcommand's words: the positional ones, newest first, and the options. -/
structure Words where
  positional : List String := []
  maxSteps : Option Nat := none
  help : Bool := false

namespace Words

/-- Takes in the number of steps, which may be given once. -/
def withSteps (w : Words) (value : String) : Option Words :=
  match w.maxSteps, readNumber? value with
  | none, some n => some { w with maxSteps := some n }
  | _, _ => none

/-- Takes in a positional word for a slot. -/
def withPositional (w : Words) (slot : Slot) (word : String) : Option Words :=
  if slot.accepts word then some { w with positional := word :: w.positional } else none

/-- Fills slots with words that all are positional. -/
def fill : List Slot → Words → List String → Option Words
  | _, w, [] => some w
  | [], _, _ :: _ => none
  | slot :: slots, w, word :: rest => do
    let w ← w.withPositional slot word
    fill slots w rest

/-- Reads the words behind a subcommand; `--` makes all words behind it positional.  `none` is bad
usage. -/
def read (takesSteps : Bool) : List Slot → Words → List String → Option Words
  | _, w, [] => some w
  | slots, w, "--" :: rest => fill slots w rest
  | slots, w, "--max-steps" :: value :: rest =>
    if takesSteps && !isOption value then do
      let w ← w.withSteps value
      read takesSteps slots w rest
    else none
  | slots, w, word :: rest =>
    if isHelp word then some { w with help := true }
    else if isOption word then do
      let value ← if takesSteps then attachedSteps? word else none
      let w ← w.withSteps value
      read takesSteps slots w rest
    else
      match slots with
      | [] => none
      | slot :: slots => do
        let w ← w.withPositional slot word
        read takesSteps slots w rest

/-- The command that the words make. -/
def command? (w : Words) (make : List String → Option Command) : Option Command :=
  if w.help then some .help else make w.positional.reverse

end Words

/-! ### Command lines -/

namespace Command

/-- What can be asked for by name. -/
def names : List String := ["run", "eval", "complete", "parse", "repl", "help"]

/-- Help about everything, or about one command. -/
def ofHelpWords? : List String → Option Command
  | [] => some .help
  | [name] => if names.contains name then some .help else none
  | _ => none

/-- Reads a command line; none at all starts the shell. -/
def ofWords? : List String → Option Command
  | [] | ["--"] => some .repl
  | "run" :: rest => do
    let w ← Words.read true [.script] {} rest
    w.command? fun
      | [script] => some (.run script w.maxSteps)
      | _ => none
  | "eval" :: rest => do
    let w ← Words.read true [.source] {} rest
    w.command? fun
      | [source] => some (.eval source w.maxSteps)
      | _ => none
  | "complete" :: rest => do
    let w ← Words.read false [.script, .offset] {} rest
    w.command? fun
      | [script, offset] => (readNumber? offset).map (.complete script)
      | _ => none
  | "parse" :: rest => do
    let w ← Words.read false [.script] {} rest
    w.command? fun
      | [script] => some (.parse script)
      | _ => none
  | "repl" :: rest => do
    let w ← Words.read false [] {} rest
    w.command? fun
      | [] => some .repl
      | _ => none
  | "help" :: rest => ofHelpWords? rest
  | word :: _ =>
    if isHelp word then some .help else if isVersion word then some .version else none

/-- The file a command reads. -/
def script? : Command → Option String
  | .run script _ | .complete script _ | .parse script => some script
  | .eval .. | .repl | .help | .version => none

end Command

end Protean.Shell
