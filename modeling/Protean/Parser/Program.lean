import Protean.Parser.Grammar
import Protean.Token.Lexer

/-!
# Parser — Program

Reading a whole text: its characters are split into tokens, and the tokens read as a program.
-/

namespace Protean

/-- What reading a text gives: its expressions, unless the reader was strict and found an error, and
the errors of both stages in the order in which they were found. -/
structure Parsed where
  exprs : Option (List Expr)
  lexical : List LexicalError
  grammar : List GrammarError

namespace Parsed

def hasErrors (p : Parsed) : Bool := !p.lexical.isEmpty || !p.grammar.isEmpty

/-- All errors, those of the characters first. -/
def diagnostics (p : Parsed) : List Diagnostic :=
  p.lexical.map LexicalError.diagnostic ++ p.grammar.map GrammarError.diagnostic

/-- The expressions, or the errors that leave none. -/
def result (p : Parsed) : Except (List Diagnostic) (List Expr) :=
  match p.exprs with
  | some exprs => .ok exprs
  | none => .error p.diagnostics

end Parsed

/-- Reads a text as a program. -/
def Expr.parse (policy : Parser.Policy) (text : String) : Parsed :=
  let lexed := Token.ofText text
  let fuel := lexed.tokens.length + 2
  match Parser.program policy fuel (.start lexed.tokens) with
  | .done exprs s =>
    let grammar := s.errors.reverse
    let sound := lexed.errors.isEmpty && grammar.isEmpty
    ⟨if policy = .tolerant || sound then some exprs else none, lexed.errors, grammar⟩
  | .failed e s => ⟨none, lexed.errors, (s.note e).errors.reverse⟩
  | .starved => ⟨none, lexed.errors, []⟩

end Protean
