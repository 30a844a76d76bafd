import Protean.Value

/-!
# Code — Basic

The form in which expressions are run.  Trailing functions have become arguments, a node may carry the
expression it was lowered from, and probes stop a run where completion wants to look around.
-/

namespace Protean

inductive Code where
  /-- A value that is already there. -/
  | const (value : Labeled)
  | identifier (origin : Option Expr) (name : String)
  | literal (origin : Option Expr) (value : Literal)
  | bracket (origin : Option Expr) (inner : Code)
  | field (origin : Option Expr) (target : Code) (key : Key)
  | call (origin : Option Expr) (target : Code) (args : List (Argument Code))
  | send (origin : Option Expr) (target : Code) (key : Key) (args : List (Argument Code))
  | bind (origin : Option Expr) (name : String) (value : Code)
  | store (origin : Option Expr) (target : Code) (key : Key) (value : Code)
  | destructure (origin : Option Expr) (names : List String) (value : Code)
  | function (origin : Option Expr) (decorators : Decorators) (parameters : List Parameter)
      (body : List Code)
  | builtin (origin : Option Expr) (which : Builtin)
  /-- Stops the run to offer the names in scope in place of `node`. -/
  | probeScope (origin : Option Expr) (node : Expr)
  /-- Stops the run to offer the fields of the target in place of `node`. -/
  | probeField (origin : Option Expr) (target : Code) (node : Expr)

/-- A function of the language without the scope it closes over. -/
structure Lambda where
  decorators : Decorators
  parameters : List Parameter
  body : List Code

namespace Code

def origin : Code → Option Expr
  | .const _ => none
  | .identifier o .. | .literal o .. | .bracket o .. | .field o .. | .call o .. | .send o ..
  | .bind o .. | .store o .. | .destructure o .. | .function o .. | .builtin o ..
  | .probeScope o .. | .probeField o .. => o

mutual

/-- How deep code is nested, bodies of functions included. -/
def height : Code → Nat
  | .const _ | .identifier .. | .literal .. | .builtin .. | .probeScope .. => 1
  | .bracket _ inner => inner.height + 1
  | .field _ target _ => target.height + 1
  | .call _ target args => max target.height (argsHeight args) + 1
  | .send _ target _ args => max target.height (argsHeight args) + 1
  | .bind _ _ value => value.height + 1
  | .store _ target _ value => max target.height value.height + 1
  | .destructure _ _ value => value.height + 1
  | .function _ _ _ body => bodyHeight body + 1
  | .probeField _ target _ => target.height + 1

def bodyHeight : List Code → Nat
  | [] => 0
  | c :: cs => max c.height (bodyHeight cs)

def argsHeight : List (Argument Code) → Nat
  | [] => 0
  | ⟨_, c⟩ :: args => max c.height (argsHeight args)

end

end Code

end Protean
