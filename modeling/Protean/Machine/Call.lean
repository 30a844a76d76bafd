import Protean.Machine.Basic

/-!
# Machine — Call

How a call passes its arguments.  Arguments reach the callee unevaluated, with the scope to evaluate
them in.  A function of the language evaluates all of them, puts them into the object `args`, binds
`it` to the first positional one and `self` to the receiver, and checks its declared parameters
before its body runs.

Everything here is stated for an evaluator `eval` of code in a scope.
-/

namespace Protean

/-- Evaluation of code in a scope. -/
abbrev Evaluator := Code → ObjectId → Eval Labeled

/-- The unevaluated arguments of a call and the scope they belong to. -/
structure CallArguments where
  entries : List (Argument Code)
  scope : ObjectId

namespace CallArguments

/-- Arguments with a receiver in front, which is named `self`. -/
def withSelf (self : Labeled) (args : List (Argument Code)) (scope : ObjectId) : CallArguments :=
  ⟨⟨some "self", .const self⟩ :: args, scope⟩

/-- Positional arguments that are values already. -/
def ofValues (values : List Labeled) (scope : ObjectId) : CallArguments :=
  ⟨values.map fun v => ⟨none, .const v⟩, scope⟩

/-- The positional argument `n`. -/
def positional? (args : CallArguments) (n : Nat) : Option Code :=
  ((args.entries.filter fun a => a.name.isNone)[n]?).map Argument.value

end CallArguments

/-- Evaluated arguments in the order of the call, positional ones under their index. -/
abbrev Entries := List (Key × Labeled)

namespace Entries

/-- The first argument under `key`; null if there is none. -/
def lookup (entries : Entries) (key : Key) : Labeled := (Fields.find? key entries).getD .null

def positional (entries : Entries) (n : Nat) : Labeled := entries.lookup (.index n)

def named (entries : Entries) (name : String) : Labeled := entries.lookup (.name name)

/-- The receiver of the call. -/
def self (entries : Entries) : Labeled := entries.named "self"

/-- The positional arguments, in order. -/
def positionals (entries : Entries) : Entries :=
  entries.filter fun (key, _) =>
    match key with
    | .index _ => true
    | .name _ => false

/-- The named arguments but for the receiver, in order. -/
def nameds (entries : Entries) : Entries :=
  entries.filter fun (key, _) =>
    match key with
    | .index _ => false
    | .name name => name != "self"

end Entries

/-- Evaluates code; a value without a source comes from this code. -/
@[inline] def evaluateLabeled (eval : Evaluator) (code : Code) (scope : ObjectId) : Eval Labeled := do
  let v ← eval code scope
  return v.orSource code.origin

/-- Evaluates code in order and yields the last value in place of `last`. -/
def runFrom (eval : Evaluator) (scope : ObjectId) : List Code → Labeled → Eval Labeled
  | [], last => Eval.pure last
  | c :: cs, _ => do
    let v ← eval c scope
    runFrom eval scope cs v

/-- Evaluates code in order and yields the last value, null if there is none. -/
def runAll (eval : Evaluator) (codes : List Code) (scope : ObjectId) : Eval Labeled :=
  runFrom eval scope codes .null

/-- Evaluates arguments in the order of the call; the positional ones are counted from `n`. -/
def materializeFrom (eval : Evaluator) (scope : ObjectId) :
    Nat → List (Argument Code) → Eval Entries
  | _, [] => Eval.pure []
  | n, ⟨some name, code⟩ :: args => do
    let v ← evaluateLabeled eval code scope
    let rest ← materializeFrom eval scope n args
    return (.name name, v) :: rest
  | n, ⟨none, code⟩ :: args => do
    let v ← evaluateLabeled eval code scope
    let rest ← materializeFrom eval scope (n + 1) args
    return (.index n, v) :: rest

/-- Evaluates all arguments of a call. -/
def materialize (eval : Evaluator) (args : CallArguments) : Eval Entries :=
  materializeFrom eval args.scope 0 args.entries

/-- Evaluates the positional argument `n`; a missing one is null. -/
def evaluatePositional (eval : Evaluator) (args : CallArguments) (n : Nat) : Eval Labeled :=
  match args.positional? n with
  | some code => evaluateLabeled eval code args.scope
  | none => Eval.pure .null

/-! ### Checking parameters -/

/-- Checks an argument against a declared parameter.  The error points at the source of the
argument. -/
def validateOne (parameter : Parameter) (v : Labeled) : Eval Unit := fun m =>
  match parameter.type.check m.heap v.value with
  | .ok () => (.ok (), m)
  | .error mismatch =>
    (.error (.error ((RuntimeError.mk (mismatch.failure parameter.key) []).leaving v.source)), m)

/-- Checks the arguments against the declared parameters, in the order of these. -/
def validate (entries : Entries) : List Parameter → Eval Unit
  | [] => Eval.pure ()
  | p :: ps => do
    validateOne p (entries.lookup p.key)
    validate entries ps

/-! ### Entering a function -/

/-- A new scope inside of the captured one, bound to `this`. -/
def openScope (captured : ObjectId) : Eval ObjectId :=
  Eval.change fun h =>
    let (scope, h) := h.allocPlain (some captured)
    (scope, h.define scope "this" (.bare (.object scope)))

/-- Writes own fields one after the other. -/
def setAll (id : ObjectId) : Fields → Eval Unit
  | [] => Eval.pure ()
  | (key, v) :: rest => do
    Eval.write fun h => h.setOwn id key v
    setAll id rest

/-- The object that holds the arguments under their keys. -/
def collectArguments (entries : Entries) : Eval ObjectId := do
  let id ← Eval.change fun h => h.allocPlain (some Heap.objectProto)
  setAll id entries
  return id

/-- Binds `args`, `it` and `self` in the scope of the call. -/
def bindArguments (scope argsObject : ObjectId) (entries : Entries) : Eval Unit :=
  Eval.change fun h =>
    let h := h.define scope "args" (.bare (.object argsObject))
    let h := h.define scope "it" (entries.positional 0)
    ((), h.define scope "self" entries.self)

/-- Everything a call does before the body runs; yields the scope of the body. -/
def prepareCall (eval : Evaluator) (lambda : Lambda) (captured : ObjectId) (args : CallArguments) :
    Eval ObjectId := do
  let scope ← openScope captured
  let entries ← materialize eval args
  let argsObject ← collectArguments entries
  bindArguments scope argsObject entries
  validate entries lambda.parameters
  return scope

/-- Calls a function of the language. -/
def callFunction (eval : Evaluator) (lambda : Lambda) (captured : ObjectId) (args : CallArguments) :
    Eval Labeled := do
  let scope ← prepareCall eval lambda captured args
  runAll eval lambda.body scope

end Protean
