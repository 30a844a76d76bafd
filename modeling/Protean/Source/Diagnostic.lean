import Protean.Source.Span

/-!
# Source — Diagnostic

What a user is told about a text: the stage that complains, a message, the place, and notes.
-/

namespace Protean

/-- The stage of processing a complaint comes from. -/
inductive Stage where
  | lexer
  | parser
  | runtime
deriving DecidableEq

def Stage.label : Stage → String
  | .lexer => "Lexer"
  | .parser => "Parser"
  | .runtime => "Runtime"

structure Diagnostic where
  stage : Stage
  message : String
  span : Option Span := none
  notes : List String := []

namespace Diagnostic

/-- The stage and the message, without place and notes. -/
def headline (d : Diagnostic) : String := d.stage.label ++ ": " ++ d.message

/-- The headline, the span in brackets if there is one, and each note on a line of its own. -/
def render (d : Diagnostic) : String :=
  let place := match d.span with
    | some span => " (" ++ span.render ++ ")"
    | none => ""
  let notes := match d.notes with
    | [] => ""
    | notes => "\n" ++ String.join (notes.map fun note => "  note: " ++ note ++ "\n")
  d.headline ++ place ++ notes

end Diagnostic

end Protean
