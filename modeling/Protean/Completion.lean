import Protean.Interpreter

/-!
# Completion

Names that may stand at a place of a text.  The text is read tolerantly, the name under the cursor
becomes a probe, and the program is run until it reaches the probe; what can be read there is offered.
-/

namespace Protean

/-- A name on offer, its documentation, and the range that it replaces. -/
structure Candidate where
  name : String
  documentation : Option String
  range : Span

namespace Expr

/-- The span of the name that a probed expression is about. -/
def nameSpan : Expr → Option Span
  | .field _ _ _ keySpan | .send _ _ _ keySpan _ _ | .store _ _ _ keySpan _ => keySpan
  | .bind _ _ nameSpan _ => nameSpan
  | e => e.span

end Expr

namespace Heap

/-- The documentation of a function. -/
def documentation (h : Heap) : Value → Option String
  | .object id =>
    match (h.get id).kind with
    | .function lambda _ => lambda.decorators.docs
    | .builtin which _ => some which.documentation
    | .plain => none
  | _ => none

/-- The names that can be read from a value, each with its documentation. -/
def candidates (h : Heap) (receiver : Value) (range : Span) : List Candidate :=
  (h.visibleKeys receiver).filterMap fun key =>
    match key, h.getValueField receiver key with
    | .name name, .ok v => some ⟨name, h.documentation v.value, range⟩
    | _, _ => none

end Heap

namespace Interpreter

/-- Runs a text with a probe under the cursor. -/
def probe (i : Interpreter) (limits : Limits) (text : String) (offset : Nat) :
    Except Interrupt Labeled × Machine :=
  let exprs := (Expr.parse .tolerant text).exprs.getD []
  i.run limits (Expr.lowerAll { retain := true, cursor := some offset } exprs)

/-- What is on offer at an offset, if the run gets there. -/
def complete (i : Interpreter) (limits : Limits) (text : String) (offset : Nat) :
    Option (List Candidate) :=
  match i.probe limits text offset with
  | (.error (.completion signal), m) =>
    let range := signal.node.nameSpan.getD (.empty offset)
    some (m.heap.candidates signal.receiver.value range)
  | _ => none

end Interpreter

end Protean
