import Protean.Machine.Failure

/-!
# Machine — Basic

The state of a run and evaluations that change it.  An evaluation takes a machine to an answer and a
machine, whether it succeeds or is interrupted, so what a failed run did to the heap stays visible.
-/

namespace Protean

/-- How many calls a run may make, and how many of them may be under way at once. -/
structure Limits where
  maxSteps : Nat := 1000000
  maxDepth : Nat := 4000
deriving DecidableEq

/-- The heap, the global scope on it, the calls made so far and those under way. -/
structure Machine where
  heap : Heap
  global : ObjectId
  steps : Nat
  depth : Nat

namespace Machine

/-- The names the global scope starts with. -/
def globalNames : List (String × ObjectId) :=
  [("objectProto", Heap.objectProto), ("functionProto", Heap.functionProto),
    ("numberProto", Heap.numberProto), ("stringProto", Heap.stringProto),
    ("booleanProto", Heap.booleanProto)]

/-- A machine whose global scope holds the builtin prototypes and itself. -/
def initial : Machine :=
  let (global, heap) := Heap.initial.allocPlain none
  let heap := globalNames.foldl (fun h (name, id) => h.define global name (.bare (.object id))) heap
  ⟨heap.define global "this" (.bare (.object global)), global, 0, 0⟩

end Machine

/-- An evaluation with a result in `α`. -/
def Eval (α : Type) : Type := Machine → Except Interrupt α × Machine

namespace Eval

variable {α β : Type}

@[inline] def pure (a : α) : Eval α := fun m => (.ok a, m)

@[inline] def bind (p : Eval α) (f : α → Eval β) : Eval β := fun m =>
  match p m with
  | (.ok a, m') => f a m'
  | (.error i, m') => (.error i, m')

instance : Monad Eval where
  pure := Eval.pure
  bind := Eval.bind

/-- Interrupts the run. -/
def interrupt (i : Interrupt) : Eval α := fun m => (.error i, m)

/-- Gives up for want of fuel. -/
def starve : Eval α := interrupt .starved

/-- Raises an error that has passed through no expression yet. -/
def fail (f : Failure) : Eval α := interrupt (.error ⟨f, []⟩)

def misuse (what : Misuse) : Eval α := fail (.misuse what)

/-- A question about the heap. -/
@[inline] def ask (f : Heap → α) : Eval α := fun m => (.ok (f m.heap), m)

/-- A question about the heap that it may refuse. -/
@[inline] def read (f : Heap → Except HeapError α) : Eval α := fun m =>
  match f m.heap with
  | .ok a => (.ok a, m)
  | .error e => (.error (.error ⟨.heap e, []⟩), m)

/-- A change of the heap that cannot fail. -/
@[inline] def change (f : Heap → α × Heap) : Eval α := fun ⟨heap, global, steps, depth⟩ =>
  let (a, heap) := f heap
  (.ok a, ⟨heap, global, steps, depth⟩)

/-- A change of the heap that it may refuse. -/
@[inline] def write (f : Heap → Except HeapError Unit × Heap) : Eval Unit :=
  fun ⟨heap, global, steps, depth⟩ =>
    match f heap with
    | (.ok (), heap) => (.ok (), ⟨heap, global, steps, depth⟩)
    | (.error e, heap) => (.error (.error ⟨.heap e, []⟩), ⟨heap, global, steps, depth⟩)

/-- An error on its way out takes note of the expression it leaves. -/
@[inline] def leaving (origin : Option Expr) (p : Eval α) : Eval α := fun m =>
  match p m with
  | (.error (.error e), m') => (.error (.error (e.leaving origin)), m')
  | r => r

/-- Counts a call, unless the run has made all the calls it may or too many are under way.  The count
has no bound of its own; where the calls are counted in a word, they are counted by `enterWord`. -/
def enter (limits : Limits) : Eval Unit := fun ⟨heap, global, steps, depth⟩ =>
  if limits.maxSteps < steps + 1 then
    (.error (.error ⟨.stepLimit limits.maxSteps, []⟩), ⟨heap, global, steps + 1, depth⟩)
  else if limits.maxDepth ≤ depth then
    (.error (.error ⟨.depthLimit limits.maxDepth, []⟩), ⟨heap, global, steps + 1, depth⟩)
  else (.ok (), ⟨heap, global, steps + 1, depth + 1⟩)

/-- Counts a call in a word of 64 bits, as the counter of a run is one.  The count starts over at zero
behind the greatest word, so no count is above a limit of `2 ^ 64 - 1`.  Below that limit the counter
never gets to start over while a run goes on, and both ways of counting come to the same
(`runAll_word_eq`, `invoke_word_eq`). -/
def enterWord (limits : Limits) : Eval Unit := fun ⟨heap, global, steps, depth⟩ =>
  let steps := (steps + 1) % UInt64.size
  if limits.maxSteps < steps then
    (.error (.error ⟨.stepLimit limits.maxSteps, []⟩), ⟨heap, global, steps, depth⟩)
  else if limits.maxDepth ≤ depth then
    (.error (.error ⟨.depthLimit limits.maxDepth, []⟩), ⟨heap, global, steps, depth⟩)
  else (.ok (), ⟨heap, global, steps, depth + 1⟩)

/-- Ends a call. -/
def leave : Machine → Machine := fun ⟨heap, global, steps, depth⟩ => ⟨heap, global, steps, depth - 1⟩

/-- Runs a call that `enter` lets in; however it ends, it is under way no longer. -/
@[inline] def guarded (enter : Eval Unit) (p : Eval α) : Eval α := fun m =>
  match enter m with
  | (.error i, m') => (.error i, m')
  | (.ok (), m') =>
    match p m' with
    | (r, m'') => (r, leave m'')

end Eval

end Protean
