import Protean.Key

/-!
# Descriptor — Basic

Descriptors of the values a parameter accepts: the primitive kinds, alternatives, objects with given
fields, and lists of elements.
-/

namespace Protean

inductive Primitive where
  | any
  | null
  | number
  | string
  | boolean
  | function
  | object
deriving DecidableEq

def Primitive.label : Primitive → String
  | .any => "any"
  | .null => "null"
  | .number => "number"
  | .string => "string"
  | .boolean => "boolean"
  | .function => "function"
  | .object => "object"

inductive Descriptor where
  | primitive (kind : Primitive)
  | or (alternatives : List Descriptor)
  | objectOf (fields : List (Key × Descriptor))
  | listOf (element : Descriptor)

namespace Descriptor

/-- `t`, or null. -/
def optional (t : Descriptor) : Descriptor := .or [t, .primitive .null]

mutual

/-- The name of a descriptor, as messages show it. -/
def label : Descriptor → String
  | .primitive kind => kind.label
  | .or alternatives => " | ".intercalate (labels alternatives)
  | .objectOf fields => "\x7b " ++ ", ".intercalate (fieldLabels fields) ++ " \x7d"
  | .listOf element => "list<" ++ element.label ++ ">"

def labels : List Descriptor → List String
  | [] => []
  | t :: ts => t.label :: labels ts

def fieldLabels : List (Key × Descriptor) → List String
  | [] => []
  | (key, t) :: fields => (key.render ++ ": " ++ t.label) :: fieldLabels fields

end

end Descriptor

/-- A declared parameter: the argument under `key` must fit `type`. -/
structure Parameter where
  key : Key
  type : Descriptor

end Protean
