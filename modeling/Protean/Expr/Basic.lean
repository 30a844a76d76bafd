import Protean.Builtin.Basic
import Protean.Source.Span

/-!
# Expr — Basic

Expressions of the language, as they are read from a text or put together by the library.  Every node
has an anchor: its span in the text, if it comes from one, and whether an editor may change it.
-/

namespace Protean

inductive Literal where
  | number (value : Float)
  | string (text : String)

/-- An argument of a call, positional or named. -/
structure Argument (α : Type) where
  name : Option String
  value : α

/-- Remarks in front of a function, in the order of their first mention; a name without a text is a
mere mark. -/
abbrev Decorators := List (String × Option String)

namespace Decorators

/-- Sets the text of `name`, in its place if `name` is there and at the end otherwise. -/
def put (name : String) (text : Option String) : Decorators → Decorators
  | [] => [(name, text)]
  | (other, old) :: rest =>
    if other = name then (other, text) :: rest else (other, old) :: put name text rest

/-- The text of the decorator `docs`. -/
def docs (decorators : Decorators) : Option String := (decorators.lookup "docs").join

end Decorators

/-- Where a node stands, and whether it may be edited there. -/
structure Anchor where
  span : Option Span
  editable : Bool
deriving DecidableEq

namespace Anchor

/-- A node that an editor may change. -/
def placed (span : Span) : Anchor := ⟨some span, true⟩

/-- A node that stands for other text at `span` and is not edited itself. -/
def derived (span : Span) : Anchor := ⟨some span, false⟩

/-- A node that stands in no text. -/
def nowhere : Anchor := ⟨none, true⟩

end Anchor

inductive Expr where
  | identifier (anchor : Anchor) (name : String)
  | literal (anchor : Anchor) (value : Literal)
  | bracket (anchor : Anchor) (inner : Expr)
  | field (anchor : Anchor) (target : Expr) (key : Key) (keySpan : Option Span)
  /-- `target(args) { … }`, where the trailing functions are further positional arguments. -/
  | call (anchor : Anchor) (target : Expr) (args : List (Argument Expr)) (trailing : List Expr)
  /-- `target.key(args) { … }`, a call of the field that passes `target` as `self`. -/
  | send (anchor : Anchor) (target : Expr) (key : Key) (keySpan : Option Span)
      (args : List (Argument Expr)) (trailing : List Expr)
  /-- `name = value`. -/
  | bind (anchor : Anchor) (name : String) (nameSpan : Option Span) (value : Expr)
  /-- `target.key = value`. -/
  | store (anchor : Anchor) (target : Expr) (key : Key) (keySpan : Option Span) (value : Expr)
  /-- `(names) = value`, which binds each name to the field of its position. -/
  | destructure (anchor : Anchor) (names : List String) (value : Expr)
  | function (anchor : Anchor) (decorators : Decorators) (parameters : List Parameter)
      (body : List Expr)
  | builtin (anchor : Anchor) (which : Builtin)

namespace Expr

def anchor : Expr → Anchor
  | .identifier a .. | .literal a .. | .bracket a .. | .field a .. | .call a .. | .send a ..
  | .bind a .. | .store a .. | .destructure a .. | .function a .. | .builtin a .. => a

def span (e : Expr) : Option Span := e.anchor.span

/-- The span of `e`, or `other` for a node that stands in no text. -/
def spanOr (e : Expr) (other : Span) : Span := e.span.getD other

/-- Only a node that stands in a text can be edited there. -/
def isEditable (e : Expr) : Bool := e.anchor.editable && e.span.isSome

mutual

/-- The same expression with no part that may be edited. -/
def freeze : Expr → Expr
  | .identifier a name => .identifier { a with editable := false } name
  | .literal a value => .literal { a with editable := false } value
  | .bracket a inner => .bracket { a with editable := false } inner.freeze
  | .field a target key keySpan => .field { a with editable := false } target.freeze key keySpan
  | .call a target args trailing =>
    .call { a with editable := false } target.freeze (freezeArgs args) (freezeAll trailing)
  | .send a target key keySpan args trailing =>
    .send { a with editable := false } target.freeze key keySpan (freezeArgs args)
      (freezeAll trailing)
  | .bind a name nameSpan value => .bind { a with editable := false } name nameSpan value.freeze
  | .store a target key keySpan value =>
    .store { a with editable := false } target.freeze key keySpan value.freeze
  | .destructure a names value => .destructure { a with editable := false } names value.freeze
  | .function a decorators parameters body =>
    .function { a with editable := false } decorators parameters (freezeAll body)
  | .builtin a which => .builtin { a with editable := false } which

def freezeAll : List Expr → List Expr
  | [] => []
  | e :: es => e.freeze :: freezeAll es

def freezeArgs : List (Argument Expr) → List (Argument Expr)
  | [] => []
  | ⟨name, e⟩ :: args => ⟨name, e.freeze⟩ :: freezeArgs args

end

end Expr

end Protean
