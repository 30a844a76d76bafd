import Protean.Descriptor.Check
import Protean.Source.Diagnostic

/-!
# Machine — Failure

How a run can end before its time: by an error of the program, by reaching a probe, or for want of
fuel, which is no answer about the program at all.  An error carries the expressions that were being
evaluated when it was raised.
-/

namespace Protean

/-- An argument that a builtin function cannot work with. -/
inductive Misuse where
  | wrongKind (who expected found : String)
  | cannotAdd (left right : String)
  | noNumbers (who : String)
  | noListProto
  | noListReceiver
deriving DecidableEq

def Misuse.message : Misuse → String
  | .wrongKind who expected found => who ++ " expected a " ++ expected ++ " but found " ++ found
  | .cannotAdd left right => "cannot add " ++ left ++ " and " ++ right
  | .noNumbers who => who ++ " expects at least one number"
  | .noListProto => "listProto is not initialized"
  | .noListReceiver => "add expects a list receiver"

/-- What went wrong in a run. -/
inductive Failure where
  | heap (error : HeapError)
  | notCallable
  | typeMismatch (path : List Key) (expected : String)
  | stepLimit (max : Nat)
  | depthLimit (max : Nat)
  | raised (message : String)
  | misuse (what : Misuse)
deriving DecidableEq

namespace Failure

def message : Failure → String
  | .heap error => error.message
  | .notCallable => "value is not callable"
  | .typeMismatch path expected =>
    "type mismatch at `" ++ Key.renderPath path ++ "`: expected " ++ expected
  | .stepLimit max => "step limit of " ++ toString max ++ " exceeded"
  | .depthLimit max => "maximum call depth of " ++ toString max ++ " exceeded"
  | .raised message => message
  | .misuse what => what.message

/-- No program could go on after these. -/
def isFatal : Failure → Bool
  | .stepLimit _ | .depthLimit _ | .heap .protoLoop => true
  | _ => false

end Failure

/-- A refusal found under `root`. -/
def Mismatch.failure (m : Mismatch) (root : Key) : Failure :=
  .typeMismatch (root :: m.path) m.expected

/-- A failure and the expressions it passed through, the outermost first. -/
structure RuntimeError where
  failure : Failure
  trace : List Expr := []

namespace RuntimeError

/-- The expressions that were active, innermost first. -/
def stack (e : RuntimeError) : List Expr := e.trace.reverse

/-- The error after it has left `origin`. -/
def leaving (e : RuntimeError) (origin : Option Expr) : RuntimeError :=
  match origin with
  | some expr => { e with trace := expr :: e.trace }
  | none => e

/-- The span of the innermost expression that has one. -/
def firstSpan (e : RuntimeError) : Option Span := e.stack.findSome? Expr.span

/-- How many enclosing expressions a diagnostic names. -/
def maxNotes : Nat := 8

def diagnostic (e : RuntimeError) : Diagnostic where
  stage := .runtime
  message := e.failure.message
  span := e.firstSpan
  notes := (((e.stack.filterMap Expr.span).drop 1).take maxNotes).map fun span =>
    "while evaluating " ++ span.render

/-- The message and the place. -/
def render (e : RuntimeError) : String :=
  e.failure.message ++
    match e.firstSpan with
    | some span => " at " ++ span.render
    | none => ""

end RuntimeError

/-- What a probe found: the value whose fields are wanted, the scope, and the probed expression. -/
structure Signal where
  receiver : Labeled
  scope : ObjectId
  node : Expr

/-- Why an evaluation has no value. -/
inductive Interrupt where
  | error (error : RuntimeError)
  | completion (signal : Signal)
  | starved

end Protean
