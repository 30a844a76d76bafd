import Protean.Expr.Basic
import Protean.Number.Text

/-!
# Value

Runtime values.  Objects live on the heap and are named by their place there; numbers, strings and
booleans have no fields of their own.  A labeled value also remembers the expression it came from.
-/

namespace Protean

/-- The place of an object on the heap. -/
abbrev ObjectId := Nat

inductive Value where
  | null
  | number (x : Float)
  | string (text : String)
  | boolean (b : Bool)
  | object (id : ObjectId)
deriving Inhabited

namespace Value

def isNull : Value → Bool
  | .null => true
  | _ => false

/-- The word for the kind of a value in messages. -/
def kindName : Value → String
  | .null => "null"
  | .number _ => "number"
  | .string _ => "string"
  | .boolean _ => "boolean"
  | .object _ => "object"

/-- Equality of the language: by value, and by identity for objects.  As for doubles, NaN differs from
itself and the two zeros are equal. -/
def same : Value → Value → Bool
  | .null, .null => true
  | .number x, .number y => x == y
  | .string s, .string t => s == t
  | .boolean a, .boolean b => a == b
  | .object i, .object j => i == j
  | _, _ => false

end Value

/-- A value with the expression that produced it, if that is known. -/
structure Labeled where
  value : Value
  source : Option Expr := none
deriving Inhabited

namespace Labeled

/-- Null without a source. -/
def null : Labeled := ⟨.null, none⟩

/-- A value without a source. -/
def bare (value : Value) : Labeled := ⟨value, none⟩

/-- Keeps the source if there is one, and else takes `origin`. -/
def orSource (v : Labeled) (origin : Option Expr) : Labeled :=
  match v.source with
  | some _ => v
  | none => ⟨v.value, origin⟩

end Labeled

def Literal.value : Literal → Value
  | .number x => .number x
  | .string text => .string text

end Protean
