import Protean.Expr.Basic
import Protean.Number.Text
import Protean.Parser.Basic

/-!
# Parser — Grammar

The readers of the language, from the innermost constructs to whole programs.  Everything nested is
read through one reader of operations, `operation`, which every reader below receives as an argument
`operand`; `operation` ties the knot, with fuel for the depth of nesting.  Loops take fuel for their
rounds.  Every nesting and every round passes a token, so the number of tokens is enough of both.

    program    = block up to the end
    block      = expression separated by newlines or semicolons
    expression = (name, …) = operation | operation = operation | operation
    operation  = access, then operators with an access each, grouped to the left
    access     = call, then `.key` or `.key` with arguments
    call       = primary with arguments any number of times
    arguments  = (argument, …) function … | function …
    primary    = name | number | string | function | (expression)
    function   = [decorators] { block }
-/

namespace Protean

namespace Parser

/-! ### Expressions built from parts -/

/-- A call of an operator with its two operands. -/
def binary (anchor : Anchor) (operator lhs rhs : Expr) : Expr :=
  .call anchor operator [⟨none, lhs⟩, ⟨none, rhs⟩] []

/-- The parts of a string joined by `+` from the left; the calls stand for the whole string. -/
def joinParts (span : Span) (first : Expr) (parts : List Expr) : Expr :=
  parts.foldl (fun e part => binary (.derived span) (.identifier (.derived span) "+") e part) first

/-- The names in `name, …, name) =`, when the tokens start so. -/
def destructuredNames : List Token → Option (List String)
  | name :: mark :: r =>
    if name.kind = .identifier then
      match mark.kind with
      | .comma => (destructuredNames r).map (name.lexeme :: ·)
      | .rightParen => if (r.head?.map Token.kind) = some .assign then some [name.lexeme] else none
      | _ => none
    else none
  | _ => none

/-- The names of a destructuring assignment that starts here. -/
def State.destructuring? (s : State) : Option (List String) :=
  if s.kind = .leftParen then destructuredNames s.rest.tail else none

/-- Arguments in parentheses or a function as argument may start here. -/
def State.startsArguments (s : State) : Bool :=
  s.kind == .leftParen || s.kind == .leftBrace || s.kind == .leftBracket

def State.startsFunction (s : State) : Bool := s.kind == .leftBrace || s.kind == .leftBracket

def State.atName (s : State) : Bool := s.kind == .identifier || s.kind == .operator

/-- A name followed by `=`: the argument is named. -/
def State.atNamedArgument (s : State) : Bool :=
  s.atName && (s.rest[1]?.map Token.kind) == some .assign

/-! ### Assignments -/

/-- `lhs = value`, where `lhs` must be a name or a field. -/
def assignment (policy : Policy) (lhs value : Expr) (equals : Span) : Parser Expr :=
  let anchor := Anchor.placed ((lhs.spanOr equals).cover (value.spanOr equals))
  match lhs with
  | .identifier a name => Parser.pure (.bind anchor name a.span value)
  | .field _ target key keySpan => Parser.pure (.store anchor target key keySpan value)
  | _ => recover policy ⟨.invalidTarget, equals⟩ value

/-- The names up to `=` have been seen to be there, so they are passed at once. -/
def destructuring (operand : Parser Expr) (names : List String) : Parser Expr := do
  let lparen ← next
  pass (2 * names.length)
  let equals ← next
  let value ← operand
  return .destructure (.placed (lparen.span.cover (value.spanOr equals.span))) names value

def expression (policy : Policy) (operand : Parser Expr) : Parser Expr := do
  let s ← state
  match s.destructuring? with
  | some names => destructuring operand names
  | none =>
    let lhs ← operand
    let s ← state
    if s.kind = .assign then
      let equals ← next
      let value ← operand
      assignment policy lhs value equals.span
    else return lhs

/-! ### Blocks and functions -/

/-- The state from which the next statement is read: broken statements are passed over, and where
nothing at all was read a token is dropped. -/
def nextStatement (closer : TokenKind) (before after : State) : State :=
  if after.consumed = before.consumed && !after.atEnd closer then after.advance else after

/-- What follows a statement that was read: a separator, the end of the block, or an error. -/
def settle (closer : TokenKind) (s : State) : State :=
  if s.atSeparator || s.atEnd closer then s
  else (s.note (s.errorHere .expectedSeparator)).synchronize

/-- Statements up to `closer` or the end of the text, added to those in `read`, newest first.  A block
never fails: errors in its statements are noted. -/
def block (closer : TokenKind) (statement : Parser Expr) : Nat → List Expr → Parser (List Expr)
  | 0, _ => starve
  | fuel + 1, read => fun s =>
    let s := s.skipSeparators
    if s.atEnd closer then .done read.reverse s
    else
      match statement s with
      | .done e s' =>
        block closer statement fuel (e :: read) (nextStatement closer s (settle closer s'))
      | .failed e s' =>
        block closer statement fuel read (nextStatement closer s (s'.note e).synchronize)
      | .starved => .starved

/-- The text of a string without interpolations, added to `text`. -/
def plainText : Nat → String → Parser String
  | 0, _ => starve
  | fuel + 1, text => do
    let s ← state
    if s.kind = .stringContent then
      let content ← next
      plainText fuel (text ++ content.lexeme)
    else if s.kind = .interpolationStart then failHere .interpolatedDecorator
    else
      let _ ← expect .stringEnd .expectedQuote
      return text

/-- Decorators separated by commas, added to `read`. -/
def decoratorList (fuel : Nat) : Nat → Decorators → Parser Decorators
  | 0, _ => starve
  | rounds + 1, read => do
    let name ← expect .identifier .expectedDecorator
    let valued ← accept .assign
    let text ←
      if valued then do
        let _ ← expect .stringStart .expectedDecoratorText
        let text ← plainText fuel ""
        Parser.pure (some text)
      else Parser.pure none
    let read := read.put name.lexeme text
    let more ← accept .comma
    if more then decoratorList fuel rounds read else return read

/-- Decorators in brackets, or none. -/
def decorators (policy : Policy) (fuel : Nat) : Parser Decorators := do
  let present ← accept .leftBracket
  if present then
    let s ← state
    let read ←
      if s.kind = .rightBracket then Parser.pure [] else decoratorList fuel fuel []
    let _ ← closer policy .rightBracket .unclosedDecorators
    return read
  else return []

def function (policy : Policy) (fuel : Nat) (operand : Parser Expr) : Parser Expr := do
  let s ← state
  let marks ← decorators policy fuel
  let _ ← expect .leftBrace .expectedFunction
  let body ← block .rightBrace (expression policy operand) fuel []
  let stop ← closer policy .rightBrace .unclosedFunction
  return .function (.placed (s.peek.span.cover stop)) marks [] body

/-! ### Strings -/

/-- The parts of a string that were read, newest first, and the text read since the last of them. -/
structure Pieces where
  parts : List Expr
  text : String
  textSpan : Option Span

namespace Pieces

/-- Adds content to the text. -/
def addText (p : Pieces) (content : Token) : Pieces :=
  { p with
    text := p.text ++ content.lexeme
    textSpan := some ((p.textSpan.map (·.cover content.span)).getD content.span) }

/-- The text read last as a part; an empty one stands at `offset`. -/
def textPart (p : Pieces) (offset : Nat) : Expr :=
  .literal (.placed (p.textSpan.getD (.empty offset))) (.string p.text)

/-- Ends the text at an interpolation that starts at `offset` and holds `e`. -/
def addPart (p : Pieces) (offset : Nat) (e : Expr) : Pieces :=
  ⟨e :: p.textPart offset :: p.parts, "", none⟩

/-- The whole string, whose last part ends where `stop` starts.  Without interpolations it is a
literal. -/
def build (p : Pieces) (span stop : Span) : Expr :=
  match p.parts with
  | [] => .literal (.placed span) (.string p.text)
  | parts =>
    let parts := if p.text.isEmpty then parts else p.textPart stop.start :: parts
    match parts.reverse with
    | first :: others => joinParts span first others
    | [] => .literal (.placed span) (.string "")

end Pieces

/-- The parts of a string up to its end, and the span of the end. -/
def stringParts (policy : Policy) (operand : Parser Expr) : Nat → Pieces → Parser (Pieces × Span)
  | 0, _ => starve
  | fuel + 1, p => do
    let s ← state
    match s.kind with
    | .stringContent =>
      let content ← next
      stringParts policy operand fuel (p.addText content)
    | .interpolationStart =>
      let mark ← next
      let e ← expression policy operand
      let _ ← closer policy .rightBrace .unclosedInterpolation
      stringParts policy operand fuel (p.addPart mark.span.start e)
    | .stringEnd =>
      let quote ← next
      return (p, quote.span)
    | _ => recover policy (s.errorHere .unterminatedString) (p, .empty s.lastStop)

def string (policy : Policy) (fuel : Nat) (operand : Parser Expr) : Parser Expr := do
  let quote ← next
  let (pieces, stop) ← stringParts policy operand fuel ⟨[], "", none⟩
  return pieces.build (quote.span.cover stop) stop

/-! ### Primaries, calls and fields -/

def primary (policy : Policy) (fuel : Nat) (operand : Parser Expr) : Parser Expr := do
  let s ← state
  let token := s.peek
  match token.kind with
  | .identifier | .operator =>
    let _ ← next
    return .identifier (.placed token.span) token.lexeme
  | .number =>
    let _ ← next
    match Number.read? token.lexeme with
    | some value => return .literal (.placed token.span) (.number value)
    | none => fail ⟨.invalidNumber, token.span⟩
  | .stringStart => string policy fuel operand
  | .leftBrace | .leftBracket => function policy fuel operand
  | .leftParen =>
    let _ ← next
    let inner ← expression policy operand
    let stop ← closer policy .rightParen .unclosedBracket
    return .bracket (.placed (token.span.cover stop)) inner
  | _ =>
    recover policy ⟨.expectedExpression, token.span⟩
      (.identifier (.placed (.empty token.span.start)) "")

def argument (operand : Parser Expr) : Parser (Argument Expr) := do
  let s ← state
  if s.atNamedArgument then
    let name ← next
    let _ ← next
    let value ← operand
    return ⟨some name.lexeme, value⟩
  else
    let value ← operand
    return ⟨none, value⟩

/-- Arguments separated by commas, added to `read`, newest first; a comma may stand behind the last
one. -/
def argumentList (operand : Parser Expr) :
    Nat → List (Argument Expr) → Parser (List (Argument Expr))
  | 0, _ => starve
  | fuel + 1, read => do
    let arg ← argument operand
    let read := arg :: read
    let more ← accept .comma
    let s ← state
    if more && s.kind != .rightParen then argumentList operand fuel read else return read.reverse

/-- Functions behind a call, added to `read`, newest first, and where the last of them ends; without
any that is `stop`. -/
def trailing (policy : Policy) (fuel : Nat) (operand : Parser Expr) :
    Nat → List Expr → Span → Parser (List Expr × Span)
  | 0, _, _ => starve
  | rounds + 1, read, stop => do
    let s ← state
    if s.startsFunction then
      let f ← function policy fuel operand
      trailing policy fuel operand rounds (f :: read) (f.spanOr stop)
    else return (read.reverse, stop)

/-- The arguments of a call: those in parentheses, the trailing functions, and where they end. -/
structure Arguments where
  args : List (Argument Expr)
  trailing : List Expr
  stop : Span

def arguments (policy : Policy) (fuel : Nat) (operand : Parser Expr) : Parser Arguments := do
  let s ← state
  if s.kind = .leftParen then
    let _ ← next
    let s ← state
    let args ← if s.kind = .rightParen then Parser.pure [] else argumentList operand fuel []
    let stop ← closer policy .rightParen .unclosedArguments
    let (functions, stop) ← trailing policy fuel operand fuel [] stop
    return ⟨args, functions, stop⟩
  else
    let (functions, stop) ← trailing policy fuel operand fuel [] s.peek.span
    return ⟨[], functions, stop⟩

/-- Calls of `e` with the arguments that follow, as often as some do. -/
def callTail (policy : Policy) (fuel : Nat) (operand : Parser Expr) : Nat → Expr → Parser Expr
  | 0, _ => starve
  | rounds + 1, e => do
    let s ← state
    if s.startsArguments then
      let start := e.spanOr s.peek.span
      let a ← arguments policy fuel operand
      callTail policy fuel operand rounds
        (.call (.placed (start.cover a.stop)) e a.args a.trailing)
    else return e

/-- The key behind a dot and its span. -/
def fieldKey (policy : Policy) (dot : Span) : Parser (Key × Span) := do
  let s ← state
  let token := s.peek
  match token.kind with
  | .identifier | .operator =>
    let _ ← next
    return (.name token.lexeme, token.span)
  | .number =>
    let _ ← next
    match Number.readIndex? token.lexeme with
    | some n => return (.index n, token.span)
    | none => fail ⟨.invalidIndex, token.span⟩
  | _ => recover policy (s.errorHere .expectedFieldName) (.name "", .empty dot.stop)

/-- Fields of `e`, read or called, as often as a dot follows. -/
def accessTail (policy : Policy) (fuel : Nat) (operand : Parser Expr) : Nat → Expr → Parser Expr
  | 0, _ => starve
  | rounds + 1, e => do
    let s ← state
    if s.kind = .dot then
      let dot ← next
      let (key, keySpan) ← fieldKey policy dot.span
      let start := e.spanOr dot.span
      let s ← state
      if s.startsArguments then
        let a ← arguments policy fuel operand
        let sent := Expr.send (.placed (start.cover a.stop)) e key (some keySpan) a.args a.trailing
        let called ← callTail policy fuel operand fuel sent
        accessTail policy fuel operand rounds called
      else
        accessTail policy fuel operand rounds
          (.field (.placed (start.cover keySpan)) e key (some keySpan))
    else return e

def access (policy : Policy) (fuel : Nat) (operand : Parser Expr) : Parser Expr := do
  let e ← primary policy fuel operand
  let called ← callTail policy fuel operand fuel e
  accessTail policy fuel operand fuel called

/-! ### Operations and programs -/

/-- Operators behind `lhs`, each with its right operand; any name may stand as an operator. -/
def operationTail (operand : Parser Expr) : Nat → Expr → Parser Expr
  | 0, _ => starve
  | rounds + 1, lhs => do
    let s ← state
    if s.atName then
      let operator ← next
      let rhs ← operand
      let span := (lhs.spanOr operator.span).cover (rhs.spanOr operator.span)
      operationTail operand rounds
        (binary (.placed span) (.identifier (.placed operator.span) operator.lexeme) lhs rhs)
    else return lhs

/-- An operation whose nested parts are read with less fuel. -/
def operation (policy : Policy) : Nat → Parser Expr
  | 0 => starve
  | fuel + 1 => do
    let first ← access policy fuel (operation policy fuel)
    operationTail (access policy fuel (operation policy fuel)) fuel first

/-- A whole program. -/
def program (policy : Policy) (fuel : Nat) : Parser (List Expr) :=
  block .eof (expression policy (operation policy fuel)) fuel []

end Parser

end Protean
