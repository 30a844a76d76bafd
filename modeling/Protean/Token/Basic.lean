import Protean.Source.Diagnostic

/-!
# Token — Basic

Tokens, the classes of characters they are made of, and what can be wrong with a text before it is
read as expressions.
-/

namespace Protean

inductive TokenKind where
  | identifier
  | operator
  | number
  | stringStart
  | stringContent
  | interpolationStart
  | stringEnd
  | leftParen
  | rightParen
  | leftBrace
  | rightBrace
  | leftBracket
  | rightBracket
  | comma
  | dot
  | semicolon
  | assign
  | newline
  | eof
deriving DecidableEq, Inhabited

/-- The kinds that may end an operand, so that a minus sign behind them is an operator. -/
def TokenKind.endsOperand : TokenKind → Bool
  | .identifier | .number | .stringEnd | .rightParen | .rightBracket | .rightBrace => true
  | _ => false

/-- A token.  The lexeme is its piece of the text, but for the content of a string, where escapes are
resolved. -/
structure Token where
  kind : TokenKind
  lexeme : String
  span : Span
deriving DecidableEq, Inhabited

namespace Token

/-- The characters that operators are made of. -/
def isOperatorChar (c : Char) : Bool :=
  ['!', '#', '%', '&', '\'', '*', '+', '-', '/', ':', '<', '=', '>', '?', '@', '\\', '^', '|',
    '~'].contains c

/-- Names start with an ASCII letter or an underscore. -/
def isNameStart (c : Char) : Bool := c.isAlpha || c == '_'

/-- Names go on with ASCII letters, digits and underscores. -/
def isNameChar (c : Char) : Bool := c.isAlphanum || c == '_'

end Token

/-- What is wrong with a text before it is read as expressions. -/
inductive LexicalCause where
  | unexpectedCharacter (c : Char)
  | unknownEscape (c : Char)
  | unterminatedString
  | unterminatedInterpolation
deriving DecidableEq

def LexicalCause.message : LexicalCause → String
  | .unexpectedCharacter c => "unexpected character `" ++ c.toString ++ "`"
  | .unknownEscape c => "unknown escape sequence `\\" ++ c.toString ++ "`"
  | .unterminatedString => "unterminated string literal"
  | .unterminatedInterpolation => "unterminated string interpolation"

structure LexicalError where
  cause : LexicalCause
  span : Span
deriving DecidableEq

def LexicalError.diagnostic (e : LexicalError) : Diagnostic where
  stage := .lexer
  message := e.cause.message
  span := some e.span

end Protean
