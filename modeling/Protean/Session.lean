import Protean.Interpreter

/-!
# Session

One machine that answers requests one after the other.  What a request did stays, whether it
succeeded or not.
-/

namespace Protean

/-- What a session is asked for: the value of a text, or what calling that value yields. -/
inductive Request where
  | eval (text : String)
  /-- A call with positional values and no receiver. -/
  | call (text : String) (values : List Value)
  /-- A call with a receiver or none and named or positional values. -/
  | invoke (text : String) (self : Option Value) (args : List (Argument Value))

namespace Request

def text : Request → String
  | .eval text | .call text _ | .invoke text _ _ => text

/-- The arguments the value of the text is called with, in the global scope. -/
def arguments? (global : ObjectId) : Request → Option CallArguments
  | .eval _ => none
  | .call _ values => some (.ofValues (values.map Labeled.bare) global)
  | .invoke _ self args =>
    let entries := args.map fun a => (⟨a.name, .const (.bare a.value)⟩ : Argument Code)
    match self with
    | some v => some (.withSelf (.bare v) entries global)
    | none => some ⟨entries, global⟩

end Request

namespace Machine

/-- Answers a request; a text that cannot be read changes nothing. -/
def answer (m : Machine) (limits : Limits) (request : Request) :
    Except (List Diagnostic) (Except Interrupt Labeled) × Machine :=
  match (Expr.parse .strict request.text).result with
  | .error ds => (.error ds, m)
  | .ok exprs =>
    match m.run limits (Expr.lowerAll { retain := true } exprs) with
    | (.error i, m) => (.ok (.error i), m)
    | (.ok v, m) =>
      match request.arguments? m.global with
      | none => (.ok (.ok v), m)
      | some args =>
        let (r, m) := m.call limits v args
        (.ok r, m)

end Machine

end Protean
