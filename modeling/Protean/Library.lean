import Protean.Module.Basic

/-!
# Library

The standard modules.  Most of their bindings are builtin functions; what can be written in the
language itself is.
-/

namespace Protean.Library

/-- `name = value`, standing in no text. -/
def define (name : String) (value : Expr) : Expr := .bind .nowhere name none value

/-- `target.name = value`, standing in no text. -/
def defineOn (target name : String) (value : Expr) : Expr :=
  .store .nowhere (.identifier .nowhere target) (.name name) none value

def builtin (which : Builtin) : Expr := .builtin .nowhere which

/-- A call without arguments. -/
def callOf (target : Expr) : Expr := .call .nowhere target [] []

def keysText : String := "
objectProto.keys = [docs = \"Lists the own keys of this object\"] \x7b
    this.result = list()
    self.forEach \x7b result.add(args.1) \x7d
    result
\x7d
"

def objects : Except ModuleError Module :=
  Module.withSource
    { name := "objects"
      runtimeDependencies := ["lists"]
      exprs :=
        [define "object" (builtin .object),
          defineOn "objectProto" "forEach" (builtin .forEach),
          defineOn "objectProto" "get" (builtin .get),
          defineOn "objectProto" "set" (builtin .set),
          defineOn "objectProto" "has" (builtin .has)] }
    keysText

/-- The two booleans are what two builtin functions yield. -/
def booleans : Module where
  name := "booleans"
  dependencies := ["objects"]
  exprs :=
    [define "true" (callOf (builtin .constTrue)),
      define "false" (callOf (builtin .constFalse)),
      define "!" (builtin .not)]

def numbers : Module where
  name := "numbers"
  dependencies := ["objects"]
  exprs :=
    [defineOn "numberProto" "floor" (builtin .floor),
      defineOn "numberProto" "ceil" (builtin .ceil),
      defineOn "numberProto" "round" (builtin .round),
      defineOn "numberProto" "abs" (builtin .abs),
      define "min" (builtin .min),
      define "max" (builtin .max)]

def strings : Module where
  name := "strings"
  dependencies := ["objects"]
  exprs :=
    [define "string" (builtin .string),
      defineOn "stringProto" "length" (builtin .stringLength),
      defineOn "stringProto" "toUpperCase" (builtin .toUpperCase),
      defineOn "stringProto" "toLowerCase" (builtin .toLowerCase),
      defineOn "stringProto" "contains" (builtin .contains)]

def control : Module where
  name := "control"
  dependencies := ["booleans"]
  exprs :=
    [define "if" (builtin .choose),
      define "while" (builtin .loop),
      define "error" (builtin .raise)]

def operators : Module where
  name := "operators"
  dependencies := ["booleans", "numbers", "strings"]
  exprs :=
    [define "+" (builtin .add),
      define "-" (builtin .subtract),
      define "*" (builtin .multiply),
      define "/" (builtin .divide),
      define "%" (builtin .remainder),
      define "<" (builtin .less),
      define "<=" (builtin .lessOrEqual),
      define ">" (builtin .greater),
      define ">=" (builtin .greaterOrEqual),
      define "==" (builtin .equal),
      define "!=" (builtin .notEqual),
      define "&&" (builtin .and),
      define "||" (builtin .or),
      define "??" (builtin .coalesce)]

def listText : String := "
listProto.forEach = [docs = \"Calls the callback with (value, index) for every element\"] \x7b
    this.callback = it
    this.i = 0
    while \x7b i < self.length \x7d \x7b
        callback(self.get(i), i)
        i = i + 1
    \x7d
    null
\x7d
listProto.map = [docs = \"New list with the callback applied to every element\"] \x7b
    this.callback = it
    this.result = list()
    self.forEach \x7b result.add(callback(args.0, args.1)) \x7d
    result
\x7d
listProto.filter = [docs = \"New list with the elements the callback accepts\"] \x7b
    this.callback = it
    this.result = list()
    self.forEach \x7b
        this.entry = args
        if(callback(entry.0, entry.1)) \x7b result.add(entry.0) \x7d
    \x7d
    result
\x7d
listProto.isEmpty = [docs = \"Whether the list has no elements\"] \x7b
    self.length == 0
\x7d
"

def lists : Except ModuleError Module :=
  Module.withSource
    { name := "lists"
      dependencies := ["objects", "control"]
      runtimeDependencies := ["operators"]
      exprs :=
        [define "listProto" (callOf (.identifier .nowhere "object")),
          define "list" (builtin .list),
          defineOn "listProto" "add" (builtin .listAdd)] }
    listText

/-- All standard modules. -/
def modules : Except ModuleError (List Module) := do
  let objects ← objects
  let lists ← lists
  return [objects, booleans, numbers, strings, control, operators, lists]

end Protean.Library
