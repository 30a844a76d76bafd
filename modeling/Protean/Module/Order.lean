import Protean.Module.Basic

/-!
# Module — Order

The order in which modules run: every module behind its dependencies, and otherwise as given.  A
module is visited by visiting its dependencies first and then adding it to the order.  The path of
visits under way tells when a module depends on itself.
-/

namespace Protean.Module

/-- The first name that stands among the names `seen` or that an earlier module has, too. -/
def duplicateAfter (seen : List String) : List Module → Option String
  | [] => none
  | m :: ms => if seen.contains m.name then some m.name else duplicateAfter (m.name :: seen) ms

/-- The first name that an earlier module has, too. -/
def duplicate? (modules : List Module) : Option String := duplicateAfter [] modules

/-- The module of the given name. -/
def find? (modules : List Module) (name : String) : Option Module :=
  modules.find? (·.name == name)

/-- The first dependency of any kind that names no module, and the module that has it. -/
def unknown? (modules : List Module) : Option (String × String) :=
  modules.findSome? fun m =>
    ((m.dependencies ++ m.runtimeDependencies).find? fun d => (find? modules d).isNone).map
      fun d => (m.name, d)

/-- The modules that must run before `m`. -/
def prerequisites (modules : List Module) (m : Module) : List Module :=
  m.dependencies.filterMap (find? modules)

/-- The circle that is closed by coming back to `name`, which stands on the path; the path is
innermost first. -/
def circle (path : List String) (name : String) : List String :=
  name :: (path.takeWhile (· != name)).reverse ++ [name]

/-- Visits modules one after the other. -/
def visitEach (visit : Module → List Module → Except ModuleError (List Module)) :
    List Module → List Module → Except ModuleError (List Module)
  | [], order => .ok order
  | m :: ms, order =>
    match visit m order with
    | .ok order => visitEach visit ms order
    | .error e => .error e

/-- Adds `m` and before it all that it needs to the order.  The path has no name twice, so with one
more fuel than there are modules it is closed to a circle before the fuel is used up. -/
def visit (modules : List Module) :
    Nat → List String → Module → List Module → Except ModuleError (List Module)
  | 0, path, m, _ => .error (.cycle (circle path m.name))
  | fuel + 1, path, m, order =>
    if order.any (·.name == m.name) then .ok order
    else if path.contains m.name then .error (.cycle (circle path m.name))
    else
      match
        visitEach (visit modules fuel (m.name :: path)) (prerequisites modules m) order
      with
      | .ok order => .ok (order ++ [m])
      | .error e => .error e

/-- The modules in the order in which they run. -/
def initializationOrder (modules : List Module) : Except ModuleError (List Module) :=
  match duplicate? modules with
  | some name => .error (.duplicate name)
  | none =>
    match unknown? modules with
    | some (module, dependency) => .error (.unknownDependency module dependency)
    | none => visitEach (visit modules (modules.length + 1) []) modules []

end Protean.Module
