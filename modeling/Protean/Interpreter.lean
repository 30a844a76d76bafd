import Protean.Code.Lower
import Protean.Library
import Protean.Machine.Evaluate
import Protean.Module.Order

/-!
# Interpreter

Running programs on top of loaded modules.  Every run starts up a machine of its own: the modules run
first, under the same limits as the program, and then the calls are counted from zero.
-/

namespace Protean

/-- A module that is ready to run. -/
structure LoadedModule where
  name : String
  code : List Code

/-- The modules to start up with, in the order in which they run. -/
structure Interpreter where
  modules : List LoadedModule

/-- Why a text has no value. -/
inductive EvalError where
  | diagnostics (ds : List Diagnostic)
  | runtime (error : RuntimeError)
  | module (error : ModuleError)

namespace EvalError

/-- What the user is told. -/
def report : EvalError → List Diagnostic
  | .diagnostics ds => ds
  | .runtime error => [error.diagnostic]
  | .module error => [error.diagnostic]

def render : EvalError → String
  | .diagnostics ds => (ds.head?.map Diagnostic.render).getD ""
  | .runtime error => error.render
  | .module error => error.message

end EvalError

/-- The function that a text consists of. -/
def Lambda.ofText? (text : String) : Option Lambda :=
  match (Expr.parse .strict text).exprs with
  | some [.function _ decorators parameters body] =>
    some ⟨decorators, parameters, Expr.lowerAll { retain := true } body⟩
  | _ => none

namespace Interpreter

/-- Orders modules and lowers them; their code remembers no expressions. -/
def ofModules (modules : List Module) : Except ModuleError Interpreter :=
  match Module.initializationOrder modules with
  | .ok ordered =>
    .ok ⟨ordered.map fun m => ⟨m.name, Expr.lowerAll { retain := false } m.exprs⟩⟩
  | .error e => .error e

/-- The interpreter of the standard modules. -/
def standard : Except ModuleError Interpreter :=
  match Library.modules with
  | .ok modules => ofModules modules
  | .error e => .error e

/-- Runs modules one after the other. -/
def load (limits : Limits) : List LoadedModule → Machine → Except Interrupt Unit × Machine
  | [], m => (.ok (), m)
  | loaded :: rest, m =>
    match m.run limits loaded.code with
    | (.ok _, m) => load limits rest m
    | (.error i, m) => (.error i, m)

/-- Starts up a machine.  The calls that the modules made are forgotten if all went well. -/
def bootstrap (i : Interpreter) (limits : Limits) : Except Interrupt Unit × Machine :=
  match load limits i.modules .initial with
  | (.ok (), m) => (.ok (), { m with steps := 0 })
  | (.error e, m) => (.error e, m)

/-- Runs code on a machine of its own. -/
def run (i : Interpreter) (limits : Limits) (codes : List Code) :
    Except Interrupt Labeled × Machine :=
  match i.bootstrap limits with
  | (.ok (), m) => m.run limits codes
  | (.error e, m) => (.error e, m)

/-- Reads a text strictly and runs it, with the machine that is left.  A text has no probes, so it is
never interrupted by one. -/
def evalText (i : Interpreter) (limits : Limits) (text : String) :
    Except EvalError (Labeled × Machine) :=
  match (Expr.parse .strict text).result with
  | .error ds => .error (.diagnostics ds)
  | .ok exprs =>
    match i.run limits (Expr.lowerAll { retain := true } exprs) with
    | (.ok v, m) => .ok (v, m)
    | (.error (.error e), _) => .error (.runtime e)
    | (.error _, m) => .ok (.null, m)

end Interpreter

end Protean
