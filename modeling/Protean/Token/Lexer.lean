import Protean.Text.Basic
import Protean.Text.Blank
import Protean.Text.Escape
import Protean.Token.Basic

/-!
# Token — Lexer

Splitting a text into tokens.  The lexer walks over the characters and keeps a stack of modes, one
for every delimiter that is open: inside braces a newline separates statements, inside parentheses,
brackets and interpolations it is a blank, and inside quotes everything is content up to the closing
quote or the next `$` and brace.  Any closing delimiter leaves the innermost mode, whatever opened it.

* `Lexer.skip` passes over blanks and comments.
* `Lexer.chunk` reads the content of a string.
* `Lexer.State.scan` reads one token that stands outside of strings.
* `Token.ofText` splits a whole text.
-/

namespace Protean

namespace Lexer

/-- What the innermost open delimiter says about the characters that follow. -/
inductive Mode where
  /-- Newlines separate statements. -/
  | statements
  /-- Newlines are blanks: inside parentheses and brackets. -/
  | inline
  /-- Newlines are blanks: inside an interpolation of a string. -/
  | interpolation
  /-- Content of a string whose opening quote stands at `openedAt`. -/
  | string (openedAt : Nat)
deriving DecidableEq

/-! ### Blanks and comments -/

/-- Where in a gap between tokens we are: outside of comments, in one that ends with the line, or in
`depth + 1` nested ones. -/
inductive Gap where
  | plain
  | line
  | block (depth : Nat)

/-- Passes over blanks and comments and returns the offset reached and the rest.  With `statements` a
newline outside of block comments ends the gap.  A block comment may run to the end of the text. -/
def skip (statements : Bool) : Gap → Nat → List Char → Nat × List Char
  | _, offset, [] => (offset, [])
  | .plain, offset, '/' :: '/' :: r => skip statements .line (offset + 2) r
  | .plain, offset, '/' :: '*' :: r => skip statements (.block 0) (offset + 2) r
  | .plain, offset, c :: r =>
    if Text.isBlank c && !(c == '\n' && statements) then
      skip statements .plain (offset + c.utf8Size) r
    else (offset, c :: r)
  | .line, offset, c :: r =>
    if c == '\n' then
      if statements then (offset, c :: r) else skip statements .plain (offset + 1) r
    else skip statements .line (offset + c.utf8Size) r
  | .block depth, offset, '/' :: '*' :: r => skip statements (.block (depth + 1)) (offset + 2) r
  | .block 0, offset, '*' :: '/' :: r => skip statements .plain (offset + 2) r
  | .block (depth + 1), offset, '*' :: '/' :: r => skip statements (.block depth) (offset + 2) r
  | .block depth, offset, c :: r => skip statements (.block depth) (offset + c.utf8Size) r

/-! ### Names, operators and numbers

Each of these splits the characters into those of the token and the rest. -/

/-- The operator characters up to the start of a comment. -/
def operatorRun : List Char → List Char × List Char
  | '/' :: '/' :: r => ([], '/' :: '/' :: r)
  | '/' :: '*' :: r => ([], '/' :: '*' :: r)
  | c :: r =>
    if Token.isOperatorChar c then
      let (taken, rest) := operatorRun r
      (c :: taken, rest)
    else ([], c :: r)
  | [] => ([], [])

/-- A point and digits, if both are there. -/
def fractionRun : List Char → List Char × List Char
  | '.' :: d :: r =>
    if d.isDigit then
      let (digits, rest) := (d :: r).span Char.isDigit
      ('.' :: digits, rest)
    else ([], '.' :: d :: r)
  | r => ([], r)

/-- An `e`, a sign or none, and digits, if the digits are there. -/
def exponentRun : List Char → List Char × List Char
  | e :: s :: d :: r =>
    if e = 'e' ∨ e = 'E' then
      if s.isDigit then
        let (digits, rest) := (s :: d :: r).span Char.isDigit
        (e :: digits, rest)
      else if (s = '+' ∨ s = '-') ∧ d.isDigit then
        let (digits, rest) := (d :: r).span Char.isDigit
        (e :: s :: digits, rest)
      else ([], e :: s :: d :: r)
    else ([], e :: s :: d :: r)
  | [e, d] =>
    if (e = 'e' ∨ e = 'E') ∧ d.isDigit then ([e, d], []) else ([], [e, d])
  | r => ([], r)

/-- Digits, with a fraction and an exponent unless only an integer may stand here. -/
def numberRun (integerOnly : Bool) (cs : List Char) : List Char × List Char :=
  let (whole, r) := cs.span Char.isDigit
  if integerOnly then (whole, r)
  else
    let (fraction, r) := fractionRun r
    let (exponent, r) := exponentRun r
    (whole ++ fraction ++ exponent, r)

/-! ### Strings -/

/-- The content of a string up to its quote, an interpolation or the end of the text. -/
structure Chunk where
  text : List Char
  errors : List LexicalError
  offset : Nat
  rest : List Char

/-- Reads content from `offset` on.  An unknown escape is an error and stands for its character. -/
def chunk (offset : Nat) : List Char → Chunk
  | [] => ⟨[], [], offset, []⟩
  | '"' :: r => ⟨[], [], offset, '"' :: r⟩
  | '$' :: '{' :: r => ⟨[], [], offset, '$' :: '{' :: r⟩
  | ['\\'] => ⟨[], [], offset + 1, []⟩
  | '\\' :: c :: r =>
    let stop := offset + 1 + c.utf8Size
    let next := chunk stop r
    match Text.unescape? c with
    | some d => { next with text := d :: next.text }
    | none =>
      { next with
        text := c :: next.text
        errors := ⟨.unknownEscape c, ⟨offset, stop⟩⟩ :: next.errors }
  | c :: r =>
    let next := chunk (offset + c.utf8Size) r
    { next with text := c :: next.text }

/-! ### The state -/

/-- The text that is left, from `offset` on, and what was found before it.  Modes are innermost first,
tokens and errors newest first; without any mode, statements are read. -/
structure State where
  offset : Nat
  rest : List Char
  modes : List Mode
  tokens : List Token
  errors : List LexicalError

namespace State

def start (cs : List Char) : State := ⟨0, cs, [], [], []⟩

def mode (s : State) : Mode := s.modes.headD .statements

def lastKind (s : State) : Option TokenKind := s.tokens.head?.map Token.kind

def push (s : State) (mode : Mode) : State := { s with modes := mode :: s.modes }

/-- Leaves the innermost mode, if there is one. -/
def pop (s : State) : State := { s with modes := s.modes.tail }

def report (s : State) (cause : LexicalCause) (span : Span) : State :=
  { s with errors := ⟨cause, span⟩ :: s.errors }

/-- Takes `taken` off the text as a token of the given kind, leaving `rest`. -/
def emit (s : State) (kind : TokenKind) (taken rest : List Char) : State :=
  let stop := s.offset + Text.byteLength taken
  { s with
    offset := stop
    rest := rest
    tokens := ⟨kind, String.ofList taken, ⟨s.offset, stop⟩⟩ :: s.tokens }

/-- Passes over one character. -/
def drop (s : State) (c : Char) (rest : List Char) : State :=
  { s with offset := s.offset + c.utf8Size, rest := rest }

/-- Passes over blanks and comments. -/
def skipGap (s : State) : State :=
  let (offset, rest) := skip (s.mode == .statements) .plain s.offset s.rest
  { s with offset := offset, rest := rest }

/-- Reads content of a string and what ends it.  Content without a single character of text makes no
token. -/
def stringPart (s : State) (openedAt : Nat) : State :=
  let k := chunk s.offset s.rest
  let tokens :=
    if k.offset = s.offset then s.tokens
    else ⟨.stringContent, String.ofList k.text, ⟨s.offset, k.offset⟩⟩ :: s.tokens
  let s : State := ⟨k.offset, k.rest, s.modes, tokens, k.errors.reverse ++ s.errors⟩
  match k.rest with
  | '"' :: r => (s.emit .stringEnd ['"'] r).pop
  | '$' :: c :: r => (s.emit .interpolationStart ['$', c] r).push .interpolation
  | _ => (s.report .unterminatedString ⟨openedAt, k.offset⟩).pop

/-- Reads the token that starts with `c`, or passes over `c` with an error.  A newline makes a token
only behind a token that is no newline itself. -/
def scan (s : State) (c : Char) (r : List Char) : State :=
  if c = '\n' then
    match s.lastKind with
    | none | some .newline => s.drop c r
    | some _ => s.emit .newline [c] r
  else if Token.isNameStart c then
    let (taken, rest) := (c :: r).span Token.isNameChar
    s.emit .identifier taken rest
  else if c.isDigit then
    let (taken, rest) := numberRun (s.lastKind == some .dot) (c :: r)
    s.emit .number taken rest
  else if c = '-' ∧ (r.head?.any Char.isDigit) ∧ ¬ s.lastKind.any TokenKind.endsOperand then
    let (taken, rest) := numberRun false r
    s.emit .number (c :: taken) rest
  else if c = '"' then (s.emit .stringStart [c] r).push (.string s.offset)
  else if c = '(' then (s.emit .leftParen [c] r).push .inline
  else if c = '[' then (s.emit .leftBracket [c] r).push .inline
  else if c = '{' then (s.emit .leftBrace [c] r).push .statements
  else if c = ')' then (s.emit .rightParen [c] r).pop
  else if c = ']' then (s.emit .rightBracket [c] r).pop
  else if c = '}' then (s.emit .rightBrace [c] r).pop
  else if c = ',' then s.emit .comma [c] r
  else if c = '.' then s.emit .dot [c] r
  else if c = ';' then s.emit .semicolon [c] r
  else if Token.isOperatorChar c then
    let (taken, rest) := operatorRun r
    s.emit (if c = '=' ∧ taken = [] then .assign else .operator) (c :: taken) rest
  else (s.drop c r).report (.unexpectedCharacter c) ⟨s.offset, s.offset + c.utf8Size⟩

/-- The end of the text: an open interpolation is an error, and the last token stands here. -/
def finish (s : State) : State :=
  let s :=
    if s.modes.contains .interpolation then s.report .unterminatedInterpolation (.empty s.offset)
    else s
  s.emit .eof [] []

/-- Reads tokens to the end of the text, at most `fuel` times a token or a part of a string. -/
def run : Nat → State → State
  | 0, s => s.finish
  | fuel + 1, s =>
    match s.mode with
    | .string openedAt => run fuel (s.stringPart openedAt)
    | _ =>
      let s := s.skipGap
      match s.rest with
      | [] => s.finish
      | c :: r => run fuel (s.scan c r)

end State

end Lexer

/-- The tokens of a text, the last of kind `eof`, and the errors in the order of the text. -/
structure Tokens where
  tokens : List Token
  errors : List LexicalError

/-- Splits a text into tokens.  Every token but the last takes a character off the text, and every
string that the text leaves open takes one part more, so twice the length is enough fuel. -/
def Token.ofText (text : String) : Tokens :=
  let cs := text.toList
  let s := Lexer.State.run (2 * cs.length + 2) (.start cs)
  ⟨s.tokens.reverse, s.errors.reverse⟩

end Protean
