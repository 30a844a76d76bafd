import Protean.Descriptor.Basic

/-!
# Builtin — Basic

The functions that the library does not write in the language itself: their parameters, their
documentation, and which of them receive their arguments unevaluated.
-/

namespace Protean

inductive Builtin where
  | object
  | forEach
  | get
  | set
  | has
  | constTrue
  | constFalse
  | not
  | floor
  | ceil
  | round
  | abs
  | min
  | max
  | string
  | stringLength
  | toUpperCase
  | toLowerCase
  | contains
  | choose
  | loop
  | raise
  | add
  | subtract
  | multiply
  | divide
  | remainder
  | less
  | lessOrEqual
  | greater
  | greaterOrEqual
  | equal
  | notEqual
  | and
  | or
  | coalesce
  | list
  | listAdd
deriving DecidableEq

namespace Builtin

/-- The arguments of these are evaluated one by one, and only when they are asked for. -/
def isLazy : Builtin → Bool
  | .constTrue | .constFalse | .and | .or | .coalesce => true
  | _ => false

/-- The positional argument `n` must be of the given kind. -/
def positional (n : Nat) (kind : Primitive) : Parameter := ⟨.index n, .primitive kind⟩

/-- The receiver of the call must be of the given kind. -/
def receiver (kind : Primitive) : Parameter := ⟨.name "self", .primitive kind⟩

/-- A field key given as a value. -/
def keyParameter : Parameter :=
  ⟨.index 0, .or [.primitive .string, .primitive .number]⟩

/-- The declared parameters, in the order in which they are checked. -/
def parameters : Builtin → List Parameter
  | .forEach => [receiver .object, positional 0 .function]
  | .get | .set | .has => [keyParameter]
  | .not => [positional 0 .boolean]
  | .floor | .ceil | .round | .abs => [receiver .number]
  | .stringLength | .toUpperCase | .toLowerCase => [receiver .string]
  | .contains => [receiver .string, positional 0 .string]
  | .choose =>
    [positional 0 .boolean, positional 1 .function,
      ⟨.index 2, .optional (.primitive .function)⟩]
  | .loop => [positional 0 .function, positional 1 .function]
  | .raise => [positional 0 .string]
  | .subtract | .multiply | .divide | .remainder | .less | .lessOrEqual | .greater
  | .greaterOrEqual => [positional 0 .number, positional 1 .number]
  | .and | .or => [positional 0 .boolean, positional 1 .boolean]
  | .listAdd => [receiver .object]
  | .object | .constTrue | .constFalse | .min | .max | .string | .add | .equal | .notEqual
  | .coalesce | .list => []

/-- What completion shows beside the name. -/
def documentation : Builtin → String
  | .object =>
    "Creates an object from the given fields; positional arguments become indexed fields"
  | .forEach => "Calls the callback with (value, key) for every own field"
  | .get => "Reads a field by name or index"
  | .set => "Sets an own field by name or index and returns the value"
  | .has => "Whether the field is present on this object or its protos"
  | .constTrue | .constFalse => ""
  | .not => "Negates a boolean"
  | .floor => "Rounds down"
  | .ceil => "Rounds up"
  | .round => "Rounds to the nearest integer"
  | .abs => "Absolute value"
  | .min => "Smallest of the given numbers"
  | .max => "Largest of the given numbers"
  | .string => "Converts any value to its display string"
  | .stringLength => "Number of characters"
  | .toUpperCase => "Upper-cased copy"
  | .toLowerCase => "Lower-cased copy"
  | .contains => "Whether the given text occurs in this string"
  | .choose => "Calls the second argument if the condition is true, otherwise the optional third"
  | .loop =>
    "Calls the body while the condition function returns true and yields the last body result"
  | .raise => "Raises an error with the given message"
  | .add => "Adds two numbers, or concatenates when either side is a string"
  | .subtract => "Subtracts two numbers"
  | .multiply => "Multiplies two numbers"
  | .divide => "Divides two numbers"
  | .remainder => "Remainder of a division"
  | .less => "Less than"
  | .lessOrEqual => "Less than or equal"
  | .greater => "Greater than"
  | .greaterOrEqual => "Greater than or equal"
  | .equal => "Equality by value for primitives and by identity for objects"
  | .notEqual => "Negated equality"
  | .and => "Logical and; the right side is skipped when the left is false"
  | .or => "Logical or; the right side is skipped when the left is true"
  | .coalesce => "The left side unless it is null, otherwise the right side"
  | .list => "Creates a list from the positional arguments"
  | .listAdd => "Appends a value to the end of this list"

end Builtin

end Protean
