import Protean.Builtin.Apply

/-!
# Machine — Evaluate

Evaluation of code.  `step` evaluates one node and leaves its parts to an evaluator; `dispatch` makes
one call and leaves everything inside of it to an evaluator and an invoker.  `evaluateBy` and `invokeBy`
tie the two together, with fuel for the depth of the recursion and the rounds of loops.  How calls are
counted is theirs to be told; `evaluate` and `invoke` count without bound, up to the limits of a run.
These bound the fuel, too, so `fuelFor` gives a fuel that no run uses up.
-/

namespace Protean

/-- Binds each name to the field of `value` under its position, counted from `n`. -/
def bindNames (scope : ObjectId) (value : Value) : Nat → List String → Eval Unit
  | _, [] => Eval.pure ()
  | n, name :: names => do
    let v ← Eval.read fun h => h.getValueField value (.index n)
    Eval.write fun h => h.setField scope (.name name) v
    bindNames scope value (n + 1) names

/-- Evaluates one node in a scope. -/
@[inline] def step (eval : Evaluator) (invoke : Invoker) (code : Code) (scope : ObjectId) :
    Eval Labeled :=
  match code with
  | .const v => Eval.pure v
  | .identifier _ name => Eval.ask fun h => h.getField scope (.name name)
  | .literal origin value => Eval.pure ⟨value.value, origin⟩
  | .bracket _ inner => evaluateLabeled eval inner scope
  | .field _ target key => do
    let target ← eval target scope
    Eval.read fun h => h.getValueField target.value key
  | .call _ target args => do
    let callee ← eval target scope
    invoke callee (.withSelf (.bare (.object scope)) args scope)
  | .send _ target key args => do
    let receiver ← eval target scope
    let callee ← Eval.read fun h => h.getValueField receiver.value key
    invoke callee (.withSelf receiver args scope)
  | .bind _ name value => do
    let v ← evaluateLabeled eval value scope
    Eval.write fun h => h.setField scope (.name name) v
    return v
  | .store _ target key value => do
    let v ← evaluateLabeled eval value scope
    let target ← eval target scope
    Eval.write fun h => h.setValueField target.value key v true
    return v
  | .destructure _ names value => do
    let v ← evaluateLabeled eval value scope
    bindNames scope v.value 0 names
    return v
  | .function origin decorators parameters body => do
    let id ← Eval.change fun h => h.allocFunction ⟨decorators, parameters, body⟩ scope
    return ⟨.object id, origin⟩
  | .builtin origin which => do
    let id ← Eval.change fun h => h.allocBuiltin which scope
    return ⟨.object id, origin⟩
  | .probeScope _ node => Eval.interrupt (.completion ⟨.bare (.object scope), scope, node⟩)
  | .probeField _ target node => do
    let receiver ← eval target scope
    Eval.interrupt (.completion ⟨receiver, scope, node⟩)

/-- Calls a value, if it can be called and `enter` lets the call in. -/
@[inline] def dispatch (enter : Eval Unit) (eval : Evaluator) (invoke : Invoker) (rounds : Nat)
    (callee : Labeled) (args : CallArguments) : Eval Labeled :=
  match callee.value with
  | .object id => do
    match ← Eval.ask fun h => (h.get id).kind with
    | .plain => Eval.fail .notCallable
    | .function lambda scope => Eval.guarded enter (callFunction eval lambda scope args)
    | .builtin which scope => Eval.guarded enter (which.apply eval invoke rounds scope args)
  | _ => Eval.fail .notCallable

mutual

/-- Evaluates code in a scope, where `enter` counts the calls.  Errors take note of the expression they
leave. -/
def evaluateBy (enter : Eval Unit) : Nat → Evaluator
  | 0, _, _ => Eval.starve
  | fuel + 1, code, scope =>
    Eval.leaving code.origin (step (evaluateBy enter fuel) (invokeBy enter fuel) code scope)

/-- Calls a value with unevaluated arguments, where `enter` counts the calls. -/
def invokeBy (enter : Eval Unit) : Nat → Invoker
  | 0, _, _ => Eval.starve
  | fuel + 1, callee, args =>
    dispatch enter (evaluateBy enter fuel) (invokeBy enter fuel) fuel callee args

end

/-- Evaluates code in a scope under the limits. -/
def evaluate (limits : Limits) : Nat → Evaluator := evaluateBy (Eval.enter limits)

/-- Calls a value with unevaluated arguments under the limits. -/
def invoke (limits : Limits) : Nat → Invoker := invokeBy (Eval.enter limits)

theorem evaluate_succ (limits : Limits) (fuel : Nat) (code : Code) (scope : ObjectId) :
    evaluate limits (fuel + 1) code scope =
      Eval.leaving code.origin (step (evaluate limits fuel) (invoke limits fuel) code scope) := rfl

theorem invoke_succ (limits : Limits) (fuel : Nat) (callee : Labeled) (args : CallArguments) :
    invoke limits (fuel + 1) callee args =
      dispatch (Eval.enter limits) (evaluate limits fuel) (invoke limits fuel) fuel callee args := rfl

/-! ### Enough fuel -/

/-- How deep the code of a function object is nested. -/
def ObjectKind.height : ObjectKind → Nat
  | .function lambda _ => Code.bodyHeight lambda.body
  | .plain | .builtin .. => 0

/-- How deep the code of all functions on the heap is nested. -/
def Heap.height (h : Heap) : Nat := h.objects.foldl (fun n o => max n o.kind.height) 0

/-- A fuel with which code of the given height runs to its end.  Between two calls that are under way
evaluation goes no deeper than code is nested, no more calls are under way than the limits allow, and
every round of a loop makes a call. -/
def Machine.fuelFor (m : Machine) (limits : Limits) (height : Nat) : Nat :=
  let calls := min limits.maxDepth (limits.maxSteps + 1) + 2
  calls * (max height m.heap.height + 4) + limits.maxSteps + 4

namespace Machine

/-- Runs code in the global scope. -/
def run (m : Machine) (limits : Limits) (codes : List Code) : Except Interrupt Labeled × Machine :=
  let fuel := m.fuelFor limits (Code.bodyHeight codes)
  let global := m.global
  runAll (evaluate limits fuel) codes global m

/-- Calls a value from outside of any program. -/
def call (m : Machine) (limits : Limits) (callee : Labeled) (args : CallArguments) :
    Except Interrupt Labeled × Machine :=
  let fuel := m.fuelFor limits (Code.argsHeight args.entries)
  invoke limits fuel callee args m

end Machine

end Protean
