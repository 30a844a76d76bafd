import Protean.Token.Basic

/-!
# Parser — Basic

What readers of token lists have in common: the state they work on, the replies they give, and the
few ways in which they touch the tokens.  A reader succeeds, fails with an error, or gives up because
its fuel ran out, and the last is no statement about the text.
-/

namespace Protean

/-- What is wrong with a text whose tokens do not make expressions. -/
inductive GrammarCause where
  | expectedSeparator
  | expectedExpression
  | expectedFieldName
  | expectedFunction
  | expectedDecorator
  | expectedDecoratorText
  | expectedQuote
  | interpolatedDecorator
  | unclosedArguments
  | unclosedBracket
  | unclosedInterpolation
  | unclosedFunction
  | unclosedDecorators
  | unterminatedString
  | invalidNumber
  | invalidIndex
  | invalidTarget
deriving DecidableEq

def GrammarCause.message : GrammarCause → String
  | .expectedSeparator => "expected a newline or `;` after expression"
  | .expectedExpression => "expected expression"
  | .expectedFieldName => "expected field name after `.`"
  | .expectedFunction => "expected `\x7b` to start function"
  | .expectedDecorator => "expected decorator name"
  | .expectedDecoratorText => "expected string value"
  | .expectedQuote => "expected closing `\"`"
  | .interpolatedDecorator => "decorator values cannot be interpolated"
  | .unclosedArguments => "expected `)` after arguments"
  | .unclosedBracket => "expected `)` after expression"
  | .unclosedInterpolation => "expected `\x7d` to close interpolation"
  | .unclosedFunction => "expected `\x7d` to close function"
  | .unclosedDecorators => "expected `]` after decorators"
  | .unterminatedString => "unterminated string literal"
  | .invalidNumber => "invalid number literal"
  | .invalidIndex => "field index must be a non-negative integer"
  | .invalidTarget => "invalid assignment target"

structure GrammarError where
  cause : GrammarCause
  span : Span
deriving DecidableEq

def GrammarError.diagnostic (e : GrammarError) : Diagnostic where
  stage := .parser
  message := e.cause.message
  span := some e.span

namespace Parser

/-- What a reader does where something is missing: a strict one fails, a tolerant one takes note of
the error and goes on with a stand-in. -/
inductive Policy where
  | strict
  | tolerant
deriving DecidableEq

/-! ### The state -/

/-- The tokens that are left, how many were read, where the last of them ended, and the errors noted
so far, newest first. -/
structure State where
  rest : List Token
  consumed : Nat
  lastStop : Nat
  errors : List GrammarError

namespace State

def start (tokens : List Token) : State := ⟨tokens, 0, 0, []⟩

/-- The next token; behind the last one there is only the end. -/
def peek (s : State) : Token := s.rest.headD ⟨.eof, "", .empty s.lastStop⟩

def kind (s : State) : TokenKind := s.peek.kind

/-- Passes the next token, but never the end. -/
def advance (s : State) : State :=
  match s.rest with
  | [] => s
  | t :: r => if t.kind = .eof then s else ⟨r, s.consumed + 1, t.span.stop, s.errors⟩

def advanceBy : Nat → State → State
  | 0, s => s
  | n + 1, s => advanceBy n s.advance

def note (s : State) (e : GrammarError) : State := { s with errors := e :: s.errors }

/-- The error `cause` at the next token. -/
def errorHere (s : State) (cause : GrammarCause) : GrammarError := ⟨cause, s.peek.span⟩

def atSeparator (s : State) : Bool := s.kind == .newline || s.kind == .semicolon

/-- At `closer`, or at the end of the text. -/
def atEnd (s : State) (closer : TokenKind) : Bool := s.kind == closer || s.kind == .eof

/-- Passes the separators in front of `s`, which `tokens` lists. -/
def skipSeparatorsIn : List Token → State → State
  | [], s => s
  | t :: r, s =>
    match t.kind with
    | .newline | .semicolon => skipSeparatorsIn r s.advance
    | _ => s

def skipSeparators (s : State) : State := skipSeparatorsIn s.rest s

/-- Passes tokens up to a separator or a closer that belongs to none of the `depth` delimiters opened
on the way. -/
def synchronizeIn : Nat → List Token → State → State
  | _, [], s => s
  | depth, t :: r, s =>
    match t.kind with
    | .eof => s
    | .newline | .semicolon => if depth = 0 then s else synchronizeIn depth r s.advance
    | .leftParen | .leftBrace | .leftBracket => synchronizeIn (depth + 1) r s.advance
    | .rightParen | .rightBrace | .rightBracket =>
      if depth = 0 then s else synchronizeIn (depth - 1) r s.advance
    | _ => synchronizeIn depth r s.advance

/-- Passes what is left of a broken statement. -/
def synchronize (s : State) : State := synchronizeIn 0 s.rest s

end State

/-! ### Replies -/

/-- What a reader answers. -/
inductive Reply (α : Type) where
  | done (value : α) (state : State)
  | failed (error : GrammarError) (state : State)
  | starved

end Parser

/-- A reader of tokens. -/
def Parser (α : Type) : Type := Parser.State → Parser.Reply α

namespace Parser

variable {α β : Type}

@[inline] def pure (a : α) : Parser α := fun s => .done a s

@[inline] def bind (p : Parser α) (f : α → Parser β) : Parser β := fun s =>
  match p s with
  | .done a s' => f a s'
  | .failed e s' => .failed e s'
  | .starved => .starved

instance : Monad Parser where
  pure := Parser.pure
  bind := Parser.bind

/-- Gives up for want of fuel. -/
def starve : Parser α := fun _ => .starved

@[inline] def state : Parser State := fun s => .done s s

/-- Passes the next token and returns it. -/
@[inline] def next : Parser Token := fun s => .done s.peek s.advance

/-- Passes `n` tokens. -/
def pass (n : Nat) : Parser Unit := fun s => .done () (s.advanceBy n)

def fail (e : GrammarError) : Parser α := fun s => .failed e s

/-- Fails at the next token. -/
def failHere (cause : GrammarCause) : Parser α := fun s => .failed (s.errorHere cause) s

/-- Fails with `e`, or takes note of it and goes on with `standIn`. -/
def recover (policy : Policy) (e : GrammarError) (standIn : α) : Parser α := fun s =>
  match policy with
  | .strict => .failed e s
  | .tolerant => .done standIn (s.note e)

/-- Passes a token of the given kind, or fails. -/
def expect (kind : TokenKind) (cause : GrammarCause) : Parser Token := fun s =>
  if s.kind = kind then .done s.peek s.advance else .failed (s.errorHere cause) s

/-- Passes a token of the given kind if it is the next one. -/
def accept (kind : TokenKind) : Parser Bool := fun s =>
  if s.kind = kind then .done true s.advance else .done false s

/-- Passes a closing delimiter and returns its span; a tolerant reader imagines a missing one right
behind the last token. -/
def closer (policy : Policy) (kind : TokenKind) (cause : GrammarCause) : Parser Span := fun s =>
  if s.kind = kind then .done s.peek.span s.advance
  else recover policy (s.errorHere cause) (.empty s.lastStop) s

end Parser

end Protean
