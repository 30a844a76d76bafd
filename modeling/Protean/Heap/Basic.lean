import Protean.Code.Basic

/-!
# Heap — Basic

Objects and the heap they live on.  An object has fields in the order in which they were first
written, a link to its prototype or none, and is plain or a function with the scope it closes over.
Scopes are plain objects whose prototype is the enclosing scope.
-/

namespace Protean

/-! ### Fields -/

/-- The own fields of an object, oldest first. -/
abbrev Fields := List (Key × Labeled)

namespace Fields

def find? (key : Key) : Fields → Option Labeled
  | [] => none
  | (other, value) :: rest => if other = key then some value else find? key rest

/-- Overwrites the field in its place, or adds it at the end. -/
def put (key : Key) (value : Labeled) : Fields → Fields
  | [] => [(key, value)]
  | (other, old) :: rest =>
    if other = key then (other, value) :: rest else (other, old) :: put key value rest

/-- Removes the field and keeps the order of the others. -/
def erase (key : Key) : Fields → Fields
  | [] => []
  | (other, value) :: rest => if other = key then rest else (other, value) :: erase key rest

/-- Writing null removes a field. -/
def write (key : Key) (value : Labeled) (fields : Fields) : Fields :=
  if value.value.isNull then erase key fields else put key value fields

def keys (fields : Fields) : List Key := fields.map Prod.fst

end Fields

/-! ### Objects -/

inductive ObjectKind where
  | plain
  /-- A function of the language and the scope it closes over. -/
  | function (lambda : Lambda) (scope : ObjectId)
  | builtin (which : Builtin) (scope : ObjectId)
deriving Inhabited

def ObjectKind.isCallable : ObjectKind → Bool
  | .plain => false
  | _ => true

structure Object where
  kind : ObjectKind := .plain
  fields : Fields := []
  proto : Option ObjectId := none
deriving Inhabited

/-- Why the heap refuses a read or a write. -/
inductive HeapError where
  | nullAccess
  | protoLoop
  | invalidProto
  | simpleProto
deriving DecidableEq

def HeapError.message : HeapError → String
  | .nullAccess => "cannot access fields of null"
  | .protoLoop => "setting this proto would create a proto loop"
  | .invalidProto => "proto must be an object or null"
  | .simpleProto => "cannot set the proto of a primitive value"

/-! ### The heap -/

structure Heap where
  objects : Array Object

namespace Heap

/-- The prototype of all objects. -/
def objectProto : ObjectId := 0

/-- The prototype of functions. -/
def functionProto : ObjectId := 1

/-- What numbers read their fields from. -/
def numberProto : ObjectId := 2

/-- What strings read their fields from. -/
def stringProto : ObjectId := 3

/-- What booleans read their fields from. -/
def booleanProto : ObjectId := 4

/-- A heap with the builtin prototypes and nothing else. -/
def initial : Heap where
  objects := #[{}, { proto := some objectProto }, { proto := some objectProto },
    { proto := some objectProto }, { proto := some objectProto }]

def size (h : Heap) : Nat := h.objects.size

/-- The object at a place; where there is none, a plain one without fields. -/
def get (h : Heap) (id : ObjectId) : Object := h.objects.getD id {}

def fields (h : Heap) (id : ObjectId) : Fields := (h.get id).fields

def proto (h : Heap) (id : ObjectId) : Option ObjectId := (h.get id).proto

/-- Puts an object on the heap, and where it lies. -/
def alloc (h : Heap) (o : Object) : ObjectId × Heap := (h.size, ⟨h.objects.push o⟩)

/-- A plain object without fields. -/
def allocPlain (h : Heap) (proto : Option ObjectId) : ObjectId × Heap := h.alloc { proto := proto }

def allocFunction (h : Heap) (lambda : Lambda) (scope : ObjectId) : ObjectId × Heap :=
  h.alloc { kind := .function lambda scope, proto := some functionProto }

def allocBuiltin (h : Heap) (which : Builtin) (scope : ObjectId) : ObjectId × Heap :=
  h.alloc { kind := .builtin which scope, proto := some functionProto }

def modify (h : Heap) (id : ObjectId) (f : Object → Object) : Heap := ⟨h.objects.modify id f⟩

/-! ### The chain of prototypes -/

/-- At most `fuel` objects of the chain from `id` on. -/
def chainFrom (h : Heap) : Nat → ObjectId → List ObjectId
  | 0, _ => []
  | fuel + 1, id =>
    match h.proto id with
    | some next => id :: chainFrom h fuel next
    | none => [id]

/-- `id`, its prototype, the prototype of that, and so on.  Links never run in a circle, so the chain
is no longer than the heap. -/
def chain (h : Heap) (id : ObjectId) : List ObjectId := h.chainFrom h.size id

/-- The field `key` of the nearest object on the chain that owns it. -/
def lookup (h : Heap) (key : Key) (chain : List ObjectId) : Option Labeled :=
  chain.findSome? fun id => (h.fields id).find? key

/-- The nearest object on the chain that owns `key`. -/
def owner? (h : Heap) (id : ObjectId) (key : Key) : Option ObjectId :=
  (h.chain id).find? fun o => ((h.fields o).find? key).isSome

/-! ### Fields of objects -/

/-- The prototype as a value. -/
def protoValue (h : Heap) (id : ObjectId) : Labeled :=
  match h.proto id with
  | some proto => .bare (.object proto)
  | none => .null

/-- An own field; null if there is none. -/
def getOwn (h : Heap) (id : ObjectId) (key : Key) : Labeled :=
  if key = .proto then h.protoValue id else ((h.fields id).find? key).getD .null

/-- A field along the chain; null if no object there owns it. -/
def getField (h : Heap) (id : ObjectId) (key : Key) : Labeled :=
  if key = .proto then h.protoValue id else (h.lookup key (h.chain id)).getD .null

/-- Writes an own field of `id`, whatever its chain holds. -/
def writeOwn (h : Heap) (id : ObjectId) (key : Key) (value : Labeled) : Heap :=
  h.modify id fun o => { o with fields := o.fields.write key value }

/-- Binds an ordinary name. -/
def define (h : Heap) (id : ObjectId) (name : String) (value : Labeled) : Heap :=
  h.writeOwn id (.name name) value

def linkProto (h : Heap) (id : ObjectId) (proto : Option ObjectId) : Heap :=
  h.modify id fun o => { o with proto := proto }

/-- Sets the prototype.  Only objects and null can be one, and no object may come to stand on its own
chain. -/
def setProto (h : Heap) (id : ObjectId) : Value → Except HeapError Unit × Heap
  | .null => (.ok (), h.linkProto id none)
  | .object proto =>
    if (h.chain proto).contains id then (.error .protoLoop, h)
    else (.ok (), h.linkProto id (some proto))
  | _ => (.error .invalidProto, h)

/-- Writes a field of the object itself. -/
def setOwn (h : Heap) (id : ObjectId) (key : Key) (value : Labeled) :
    Except HeapError Unit × Heap :=
  if key = .proto then h.setProto id value.value else (.ok (), h.writeOwn id key value)

/-- Writes a field where the chain holds it, and on the object itself if no object there does. -/
def setField (h : Heap) (id : ObjectId) (key : Key) (value : Labeled) :
    Except HeapError Unit × Heap :=
  if key = .proto then h.setProto id value.value
  else
    let owner := (h.owner? id key).getD id
    (.ok (), h.writeOwn owner key value)

/-! ### Fields of values -/

/-- Where the fields of a primitive value are kept. -/
def primitiveProto : Value → Option ObjectId
  | .number _ => some numberProto
  | .string _ => some stringProto
  | .boolean _ => some booleanProto
  | .null | .object _ => none

/-- The prototype of a value; null has none. -/
def protoOfValue (h : Heap) : Value → Option ObjectId
  | .object id => h.proto id
  | v => primitiveProto v

/-- Where reading the fields of a value starts. -/
def base : Value → Option ObjectId
  | .object id => some id
  | v => primitiveProto v

/-- A field of any value. -/
def getValueField (h : Heap) (target : Value) (key : Key) : Except HeapError Labeled :=
  match target with
  | .null => .error .nullAccess
  | .object id => .ok (h.getField id key)
  | v =>
    match primitiveProto v with
    | some proto =>
      .ok (if key = .proto then .bare (.object proto) else h.getField proto key)
    | none => .error .nullAccess

/-- A field of a value without its chain. -/
def getValueOwn (h : Heap) (target : Value) (key : Key) : Except HeapError Labeled :=
  match target with
  | .null => .error .nullAccess
  | .object id => .ok (h.getOwn id key)
  | v =>
    match primitiveProto v with
    | some proto => .ok (if key = .proto then .bare (.object proto) else h.getOwn proto key)
    | none => .error .nullAccess

/-- Writes a field of any value, on the object itself if `own` says so.  The fields of primitive
values are those of their prototype, which itself is not theirs to change. -/
def setValueField (h : Heap) (target : Value) (key : Key) (value : Labeled) (own : Bool) :
    Except HeapError Unit × Heap :=
  match target with
  | .null => (.error .nullAccess, h)
  | .object id => if own then h.setOwn id key value else h.setField id key value
  | v =>
    if key = .proto then (.error .simpleProto, h)
    else
      match primitiveProto v with
      | some proto => if own then h.setOwn proto key value else h.setField proto key value
      | none => (.error .nullAccess, h)

/-- The keys that can be read from a value: those of the nearest object first, none twice. -/
def visibleKeys (h : Heap) (target : Value) : List Key :=
  match base target with
  | some id => ((h.chain id).flatMap fun o => (h.fields o).keys).eraseDups
  | none => []

def isCallable (h : Heap) : Value → Bool
  | .object id => (h.get id).kind.isCallable
  | _ => false

/-- The text of a value when it is printed or joined to a string. -/
def display (h : Heap) : Value → String
  | .null => "null"
  | .number x => Number.render x
  | .string text => text
  | .boolean b => if b then "true" else "false"
  | .object id => if (h.get id).kind.isCallable then "[function]" else "[object]"

end Heap

end Protean
