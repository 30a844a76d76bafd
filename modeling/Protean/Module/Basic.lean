import Protean.Parser.Program

/-!
# Module — Basic

Named groups of expressions that are run once when a machine starts up.
-/

namespace Protean

/-- A module.  Its dependencies must have run before it; its runtime dependencies are looked up only
when its functions are called, so they may point back to modules that depend on this one. -/
structure Module where
  name : String
  dependencies : List String := []
  runtimeDependencies : List String := []
  exprs : List Expr := []

inductive ModuleError where
  | duplicate (name : String)
  | unknownDependency (module dependency : String)
  | cycle (names : List String)
  | source (module message : String)
deriving DecidableEq

namespace ModuleError

def message : ModuleError → String
  | .duplicate name => "module `" ++ name ++ "` is declared more than once"
  | .unknownDependency module dependency =>
    "module `" ++ module ++ "` depends on unknown module `" ++ dependency ++ "`"
  | .cycle names => "dependency cycle between modules: " ++ " -> ".intercalate names
  | .source module message => "module `" ++ module ++ "` failed to parse: " ++ message

def diagnostic (e : ModuleError) : Diagnostic where
  stage := .runtime
  message := e.message

end ModuleError

namespace Module

/-- Adds expressions written in the language, which nobody is to edit. -/
def withSource (m : Module) (text : String) : Except ModuleError Module :=
  match (Expr.parse .strict text).result with
  | .ok exprs => .ok { m with exprs := m.exprs ++ exprs.map Expr.freeze }
  | .error ds => .error (.source m.name ("; ".intercalate (ds.map Diagnostic.render)))

end Module

end Protean
