import Protean.Expr.Basic
import Protean.Number.Text
import Protean.Text.Escape

/-!
# Expr — Printer

Expressions as text in one fixed layout: operators are printed as calls, every call has its
parentheses, and every statement of a function stands on a line of its own.
-/

namespace Protean

def Literal.print : Literal → String
  | .number value => Number.render value
  | .string text => Text.quote text

namespace Decorators

def printOne : String × Option String → String
  | (name, some text) => name ++ " = " ++ Text.quote text
  | (name, none) => name

/-- The decorators in brackets and a blank, or nothing. -/
def print : Decorators → String
  | [] => ""
  | decorators => "[" ++ ", ".intercalate (decorators.map printOne) ++ "] "

end Decorators

namespace Expr

mutual

def print : Expr → String
  | .identifier _ name => name
  | .literal _ value => value.print
  | .bracket _ inner => "(" ++ inner.print ++ ")"
  | .field _ target key _ => target.print ++ "." ++ key.render
  | .call _ target args trailing =>
    target.print ++ "(" ++ ", ".intercalate (printArgs args) ++ ")" ++ printTrailing trailing
  | .send _ target key _ args trailing =>
    target.print ++ "." ++ key.render ++ "(" ++ ", ".intercalate (printArgs args) ++ ")" ++
      printTrailing trailing
  | .bind _ name _ value => name ++ " = " ++ value.print
  | .store _ target key _ value => target.print ++ "." ++ key.render ++ " = " ++ value.print
  | .destructure _ names value => "(" ++ ", ".intercalate names ++ ") = " ++ value.print
  | .function _ decorators _ [] => decorators.print ++ "\x7b \x7d"
  | .function _ decorators _ (e :: body) =>
    decorators.print ++ "\x7b\n" ++ e.print ++ "\n" ++ printBody body ++ "\x7d"
  | .builtin .. => "<native function>"

/-- Each argument on its own, with its name in front if it has one. -/
def printArgs : List (Argument Expr) → List String
  | [] => []
  | ⟨some name, e⟩ :: args => (name ++ " = " ++ e.print) :: printArgs args
  | ⟨none, e⟩ :: args => e.print :: printArgs args

/-- The functions behind a call, a blank in front of each. -/
def printTrailing : List Expr → String
  | [] => ""
  | e :: es => " " ++ e.print ++ printTrailing es

/-- Statements, each followed by a newline. -/
def printBody : List Expr → String
  | [] => ""
  | e :: es => e.print ++ "\n" ++ printBody es

end

/-- A program: its expressions, each on a line of its own. -/
def printAll (es : List Expr) : String := "\n".intercalate (es.map print)

end Expr

end Protean
