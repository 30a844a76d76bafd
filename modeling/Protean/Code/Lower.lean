import Protean.Code.Basic

/-!
# Code — Lower

Lowering expressions to code, node by node.  A lowering keeps the expressions as origins of the code
or drops them, and it may look for the name under a cursor, which it turns into a probe.
-/

namespace Protean

/-- Whether code remembers its expressions, and the offset of the name to probe, if there is one. -/
structure Lowering where
  retain : Bool
  cursor : Option Nat := none

namespace Lowering

def origin (l : Lowering) (e : Expr) : Option Expr := if l.retain then some e else none

/-- The cursor touches the span. -/
def hits (l : Lowering) (span : Option Span) : Bool :=
  match l.cursor, span with
  | some offset, some span => span.contains offset
  | _, _ => false

end Lowering

namespace Expr

mutual

def lower (l : Lowering) : Expr → Code
  | e@(.identifier a name) =>
    if l.hits a.span then .probeScope (l.origin e) e else .identifier (l.origin e) name
  | e@(.literal _ value) => .literal (l.origin e) value
  | e@(.bracket _ inner) => .bracket (l.origin e) (inner.lower l)
  | e@(.field _ target key keySpan) =>
    if l.hits keySpan then .probeField (l.origin e) (target.lower l) e
    else .field (l.origin e) (target.lower l) key
  | e@(.call _ target args trailing) =>
    .call (l.origin e) (target.lower l) (lowerArgs l args ++ lowerTrailing l trailing)
  | e@(.send _ target key keySpan args trailing) =>
    if l.hits keySpan then .probeField (l.origin e) (target.lower l) e
    else
      .send (l.origin e) (target.lower l) key (lowerArgs l args ++ lowerTrailing l trailing)
  | e@(.bind _ name nameSpan value) =>
    if l.hits nameSpan then .probeScope (l.origin e) e
    else .bind (l.origin e) name (value.lower l)
  | e@(.store _ target key keySpan value) =>
    if l.hits keySpan then .probeField (l.origin e) (target.lower l) e
    else .store (l.origin e) (target.lower l) key (value.lower l)
  | e@(.destructure _ names value) => .destructure (l.origin e) names (value.lower l)
  | e@(.function _ decorators parameters body) =>
    .function (l.origin e) decorators parameters (lowerAll l body)
  | e@(.builtin _ which) => .builtin (l.origin e) which

def lowerAll (l : Lowering) : List Expr → List Code
  | [] => []
  | e :: es => e.lower l :: lowerAll l es

def lowerArgs (l : Lowering) : List (Argument Expr) → List (Argument Code)
  | [] => []
  | ⟨name, e⟩ :: args => ⟨name, e.lower l⟩ :: lowerArgs l args

/-- Trailing functions as positional arguments. -/
def lowerTrailing (l : Lowering) : List Expr → List (Argument Code)
  | [] => []
  | e :: es => ⟨none, e.lower l⟩ :: lowerTrailing l es

end

end Expr

end Protean
