import Protean.Parser.Grammar

/-!
# Proofs — Parser — the grammar

What texts of the language are, said without a reader.  A `Phrase` relates lists of tokens to what
they stand for.  Every construct is a phrase over the phrase of operations that may stand inside of it,
`Operation` ties the knot, and `Program` is a whole text:

    program    = body eof
    body       = seps? (expression (seps expression)* seps?)?
    expression = `(` name (`,` name)* `)` `=` operation | target `=` operation | operation
    operation  = access (operator access)*
    access     = primary callargs* (`.` key callargs*)*
    callargs   = `(` (argument (`,` argument)* `,`?)? `)` function* | function+
    argument   = (operator `=`)? operation
    primary    = operator | number | string | function | `(` expression `)`
    string     = start (content | interpolation expression `}`)* end
    function   = (`[` (decorator (`,` decorator)*)? `]`)? `{` body `}`
    decorator  = name (`=` start content* end)?

An operator is any name or operator token, and a target a name or a field.

Each phrase also builds the tree that it stands for, with all its spans, so the grammar says not only which texts there
are but also what they are read as.
-/

namespace Protean

namespace Grammar

open Protean.Parser

/-- What lists of tokens stand for. -/
abbrev Phrase (α : Type) := List Token → α → Prop

variable {α : Type}

/-! ### Repetition

Phrases one after the other, with or without something between them. -/

/-- Phrases one behind the other. -/
inductive Repeated (P : Phrase α) : Phrase (List α)
  | nil : Repeated P [] []
  | cons {ts us : List Token} {a : α} {as : List α} :
      P ts a → Repeated P us as → Repeated P (ts ++ us) (a :: as)

/-- Phrases with commas between them, at least one. -/
inductive Separated (P : Phrase α) : Phrase (List α)
  | last {ts : List Token} {a : α} : P ts a → Separated P ts [a]
  | more {ts us : List Token} {comma : Token} {a : α} {as : List α} :
      P ts a → comma.kind = .comma → Separated P us as → Separated P (ts ++ comma :: us) (a :: as)

/-- Newlines and semicolons. -/
def Separators (ts : List Token) : Prop := ∀ t ∈ ts, t.kind = .newline ∨ t.kind = .semicolon

/-- Statements with separators between them, at least one, and perhaps separators behind the last. -/
inductive Statements (P : Phrase Expr) : Phrase (List Expr)
  | last {ts seps : List Token} {e : Expr} :
      P ts e → Separators seps → Statements P (ts ++ seps) [e]
  | more {ts seps us : List Token} {e : Expr} {es : List Expr} :
      P ts e → Separators seps → seps ≠ [] → Statements P us es →
        Statements P (ts ++ seps ++ us) (e :: es)

/-- What a function or a program holds. -/
inductive Body (P : Phrase Expr) : Phrase (List Expr)
  | empty {seps : List Token} : Separators seps → Body P seps []
  | full {seps ts : List Token} {es : List Expr} :
      Separators seps → Statements P ts es → Body P (seps ++ ts) es

/-! ### Assignments

Expressions, and the names of destructuring assignments. -/

/-- A token that may name something or stand as an operator. -/
def IsName (t : Token) : Prop := t.kind = .identifier ∨ t.kind = .operator

/-- A name is not the end of the text. -/
theorem IsName.ne_eof {t : Token} (h : IsName t) : t.kind ≠ .eof := by
  rcases h with h | h <;> simp [h]

/-- Where `lhs` and `rhs` stand that `mark` connects. -/
def joint (lhs : Expr) (mark : Token) (rhs : Expr) : Anchor :=
  .placed ((lhs.spanOr mark.span).cover (rhs.spanOr mark.span))

/-- `name, …, name)`. -/
inductive Names : Phrase (List String)
  | last {name close : Token} :
      name.kind = .identifier → close.kind = .rightParen → Names [name, close] [name.lexeme]
  | more {name comma : Token} {ts : List Token} {names : List String} :
      name.kind = .identifier → comma.kind = .comma → Names ts names →
        Names (name :: comma :: ts) (name.lexeme :: names)

/-- An expression over operations: a destructuring assignment, an assignment to a target, or an operation. -/
inductive Expression (R : Phrase Expr) : Phrase Expr
  | destructure {lparen equals : Token} {ts us : List Token} {names : List String} {value : Expr} :
      lparen.kind = .leftParen → Names ts names → equals.kind = .assign → R us value →
        Expression R (lparen :: ts ++ equals :: us)
          (.destructure (.placed (lparen.span.cover (value.spanOr equals.span))) names value)
  | bind {equals : Token} {ts us : List Token} {a : Anchor} {name : String} {value : Expr} :
      R ts (.identifier a name) → equals.kind = .assign → R us value →
        Expression R (ts ++ equals :: us)
          (.bind (joint (.identifier a name) equals value) name a.span value)
  | store {equals : Token} {ts us : List Token} {a : Anchor} {target : Expr} {key : Key}
      {keySpan : Option Span} {value : Expr} :
      R ts (.field a target key keySpan) → equals.kind = .assign → R us value →
        Expression R (ts ++ equals :: us)
          (.store (joint (.field a target key keySpan) equals value) target key keySpan value)
  | operation {ts : List Token} {e : Expr} : R ts e → Expression R ts e

/-! ### Functions and strings

The phrases with delimiters of their own, apart from parentheses and brackets. -/

/-- The rest of a string without interpolations. -/
inductive Content : Phrase String
  | stop {quote : Token} : quote.kind = .stringEnd → Content [quote] ""
  | more {content : Token} {ts : List Token} {text : String} :
      content.kind = .stringContent → Content ts text →
        Content (content :: ts) (content.lexeme ++ text)

/-- A decorator, with or without a text. -/
inductive Decorator : Phrase (String × Option String)
  | mark {name : Token} : name.kind = .identifier → Decorator [name] (name.lexeme, none)
  | text {name equals quote : Token} {ts : List Token} {text : String} :
      name.kind = .identifier → equals.kind = .assign → quote.kind = .stringStart → Content ts text →
        Decorator (name :: equals :: quote :: ts) (name.lexeme, some text)

/-- The decorators of a function; the last remark of a name counts. -/
inductive Remarks : Phrase Decorators
  | none : Remarks [] []
  | empty {lbracket rbracket : Token} :
      lbracket.kind = .leftBracket → rbracket.kind = .rightBracket → Remarks [lbracket, rbracket] []
  | full {lbracket rbracket : Token} {ts : List Token} {ds : List (String × Option String)} :
      lbracket.kind = .leftBracket → Separated Decorator ts ds → rbracket.kind = .rightBracket →
        Remarks (lbracket :: ts ++ [rbracket])
          (ds.foldl (fun read d => Decorators.put d.1 d.2 read) [])

/-- A function, with or without decorators. -/
inductive Function (R : Phrase Expr) : Phrase Expr
  | mk {lbrace rbrace : Token} {ts us : List Token} {remarks : Decorators} {body : List Expr} :
      Remarks ts remarks → lbrace.kind = .leftBrace → Body (Expression R) us body →
        rbrace.kind = .rightBrace →
        Function R (ts ++ lbrace :: us ++ [rbrace])
          (.function (.placed ((ts.headD lbrace).span.cover rbrace.span)) remarks [] body)

/-- The rest of a string, of which `p` was read. -/
inductive StringRest (R : Phrase Expr) : Pieces → Phrase (Pieces × Span)
  | stop {p : Pieces} {quote : Token} :
      quote.kind = .stringEnd → StringRest R p [quote] (p, quote.span)
  | content {p : Pieces} {content : Token} {ts : List Token} {r : Pieces × Span} :
      content.kind = .stringContent → StringRest R (p.addText content) ts r →
        StringRest R p (content :: ts) r
  | interpolation {p : Pieces} {mark rbrace : Token} {ts us : List Token} {e : Expr}
      {r : Pieces × Span} :
      mark.kind = .interpolationStart → Expression R ts e → rbrace.kind = .rightBrace →
        StringRest R (p.addPart mark.span.start e) us r →
        StringRest R p (mark :: ts ++ rbrace :: us) r

/-- A primary over operations. -/
inductive Primary (R : Phrase Expr) : Phrase Expr
  | name {t : Token} : IsName t → Primary R [t] (.identifier (.placed t.span) t.lexeme)
  /-- Number tokens can all be read. -/
  | number {t : Token} : t.kind = .number →
      Primary R [t] (.literal (.placed t.span) (.number ((Number.read? t.lexeme).getD 0)))
  | string {quote : Token} {ts : List Token} {pieces : Pieces} {stop : Span} :
      quote.kind = .stringStart → StringRest R ⟨[], "", none⟩ ts (pieces, stop) →
        Primary R (quote :: ts) (pieces.build (quote.span.cover stop) stop)
  | function {ts : List Token} {e : Expr} : Function R ts e → Primary R ts e
  | bracket {lparen rparen : Token} {ts : List Token} {e : Expr} :
      lparen.kind = .leftParen → Expression R ts e → rparen.kind = .rightParen →
        Primary R (lparen :: ts ++ [rparen]) (.bracket (.placed (lparen.span.cover rparen.span)) e)

/-! ### Calls and fields

What may follow a primary. -/

/-- An argument over operations, with or without a name. -/
inductive Passed (R : Phrase Expr) : Phrase (Argument Expr)
  | named {name equals : Token} {ts : List Token} {value : Expr} :
      IsName name → equals.kind = .assign → R ts value →
        Passed R (name :: equals :: ts) ⟨some name.lexeme, value⟩
  | positional {ts : List Token} {value : Expr} : R ts value → Passed R ts ⟨none, value⟩

/-- A comma or nothing. -/
def OptionalComma (ts : List Token) : Prop :=
  ts = [] ∨ ∃ comma : Token, comma.kind = .comma ∧ ts = [comma]

/-- Arguments in parentheses, and where they end. -/
inductive Parens (R : Phrase Expr) : Phrase (List (Argument Expr) × Span)
  | empty {lparen rparen : Token} : lparen.kind = .leftParen → rparen.kind = .rightParen →
      Parens R [lparen, rparen] ([], rparen.span)
  | full {lparen rparen : Token} {ts us : List Token} {args : List (Argument Expr)} :
      lparen.kind = .leftParen → Separated (Passed R) ts args → OptionalComma us →
        rparen.kind = .rightParen → Parens R (lparen :: ts ++ us ++ [rparen]) (args, rparen.span)

/-- Where `functions` end that follow `stop`. -/
def stopOf (functions : List Expr) (stop : Span) : Span :=
  functions.foldl (fun stop f => f.spanOr stop) stop

/-- The arguments of a call: in parentheses, with functions behind them, or functions alone. -/
inductive CallArgs (R : Phrase Expr) : Phrase Arguments
  | parens {ts us : List Token} {args : List (Argument Expr)} {stop : Span} {functions : List Expr} :
      Parens R ts (args, stop) → Repeated (Function R) us functions →
        CallArgs R (ts ++ us) ⟨args, functions, stopOf functions stop⟩
  | functions {t : Token} {ts : List Token} {functions : List Expr} :
      Repeated (Function R) (t :: ts) functions →
        CallArgs R (t :: ts) ⟨[], functions, stopOf functions t.span⟩

/-- Calls of an expression, of the outcome, and so on. -/
inductive Calls (R : Phrase Expr) : Expr → Phrase Expr
  | nil {e : Expr} : Calls R e [] e
  | cons {e e' : Expr} {t : Token} {ts us : List Token} {a : Arguments} :
      CallArgs R (t :: ts) a →
        Calls R (.call (.placed ((e.spanOr t.span).cover a.stop)) e a.args a.trailing) us e' →
        Calls R e (t :: ts ++ us) e'

/-- The key behind a dot. -/
inductive KeyToken : Token → Key → Prop
  | name {t : Token} : IsName t → KeyToken t (.name t.lexeme)
  | index {t : Token} {n : Nat} :
      t.kind = .number → Number.readIndex? t.lexeme = some n → KeyToken t (.index n)

/-- Fields of an expression, read or called, of the outcome, and so on. -/
inductive Fields (R : Phrase Expr) : Expr → Phrase Expr
  | nil {e : Expr} : Fields R e [] e
  | field {e e' : Expr} {dot t : Token} {ts : List Token} {key : Key} :
      dot.kind = .dot → KeyToken t key →
        Fields R (.field (.placed ((e.spanOr dot.span).cover t.span)) e key (some t.span)) ts e' →
        Fields R e (dot :: t :: ts) e'
  | send {e called e' : Expr} {dot t : Token} {ts us vs : List Token} {key : Key} {a : Arguments} :
      dot.kind = .dot → KeyToken t key → CallArgs R ts a →
        Calls R (.send (.placed ((e.spanOr dot.span).cover a.stop)) e key (some t.span) a.args
          a.trailing) us called →
        Fields R called vs e' → Fields R e (dot :: t :: ts ++ us ++ vs) e'

/-- An access over operations: a primary, the calls of it, and fields with calls of their own. -/
inductive Access (R : Phrase Expr) : Phrase Expr
  | mk {ts us vs : List Token} {e called e' : Expr} :
      Primary R ts e → Calls R e us called → Fields R called vs e' → Access R (ts ++ us ++ vs) e'

/-! ### Operations and programs

The knot is tied: operations inside of operations. -/

/-- An operator with its right operand. -/
inductive Operator (P : Phrase Expr) : Phrase (Token × Expr)
  | mk {operator : Token} {ts : List Token} {rhs : Expr} :
      IsName operator → P ts rhs → Operator P (operator :: ts) (operator, rhs)

/-- An operator applied to its two operands: a call of the method that the operator names. -/
def applied (lhs : Expr) (right : Token × Expr) : Expr :=
  binary (joint lhs right.1 right.2) (.identifier (.placed right.1.span) right.1.lexeme) lhs right.2

/-- Operands with operators between them, grouped to the left. -/
inductive Chain (P : Phrase Expr) : Phrase Expr
  | mk {ts us : List Token} {first : Expr} {rights : List (Token × Expr)} :
      P ts first → Repeated (Operator P) us rights → Chain P (ts ++ us) (rights.foldl applied first)

/-- Operators between accesses, all of the same precedence, from left to right. -/
inductive Operation : Phrase Expr
  | mk {ts : List Token} {e : Expr} : Chain (Access Operation) ts e → Operation ts e

/-- A whole text: a body in front of the end. -/
inductive Program : Phrase (List Expr)
  | mk {ts : List Token} {eof : Token} {es : List Expr} :
      Body (Expression Operation) ts es → eof.kind = .eof → Program (ts ++ [eof]) es

/-! ### Names in front of an assignment

The names of a destructuring assignment are found by looking ahead, and this finds just the phrase of the
grammar. -/

/-- Each destructured name has a token, and there is a comma or a parenthesis for each. -/
theorem Names.length_eq {ts : List Token} {names : List String} (h : Names ts names) :
    ts.length = 2 * names.length := by
  induction h with
  | last => rfl
  | more _ _ _ ih =>
    simp only [List.length_cons, ih]
    omega

/-- No token of destructured names is the end of the text. -/
theorem Names.ne_eof {ts : List Token} {names : List String} (h : Names ts names) :
    ∀ t ∈ ts, t.kind ≠ .eof := by
  induction h with
  | last hname hclose => simp [hname, hclose]
  | more hname hcomma _ ih => simpa [hname, hcomma] using ih

/-- Looking ahead for names finds just what may stand in front of a destructuring assignment. -/
theorem destructuredNames_eq_some {ts : List Token} {names : List String} :
    destructuredNames ts = some names ↔
      ∃ us equals vs, ts = us ++ equals :: vs ∧ Names us names ∧ equals.kind = .assign := by
  constructor
  · intro h
    fun_induction destructuredNames ts generalizing names with
    | case1 name mark r hname hmark ih =>
      obtain ⟨rest, hrest, rfl⟩ := Option.map_eq_some_iff.mp h
      obtain ⟨us, equals, vs, rfl, hus, hequals⟩ := ih hrest
      exact ⟨name :: mark :: us, equals, vs, rfl, .more hname hmark hus, hequals⟩
    | case2 name mark r hname hmark hassign =>
      cases h
      obtain ⟨equals, hhead, hequals⟩ := Option.map_eq_some_iff.mp hassign
      obtain ⟨vs, rfl⟩ := List.head?_eq_some_iff.mp hhead
      exact ⟨[name, mark], equals, vs, rfl, .last hname hmark, hequals⟩
    | _ => cases h
  · rintro ⟨us, equals, vs, rfl, hus, hequals⟩
    induction hus with
    | last hname hclose => simp [destructuredNames, hname, hclose, hequals]
    | more hname hcomma _ ih => simp [destructuredNames, hname, hcomma, ih]

end Grammar

end Protean
